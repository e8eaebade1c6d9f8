import Lalr.Proofs.First.Exact
import Lalr.Proofs.Lookup.Names

/-! The computation of FIRST sets finds every counter, rule and set that it looks up. -/
namespace Lalr

variable {g : Grammar}

namespace Nullability

/-- As `count`. The nonterminal of the rule is looked up for a trace. -/
def Search.count? (g : Grammar) (s : Search) (r : RuleId) : Option Search := do
  let n ← s.remaining.get? r
  let s := { s with remaining := s.remaining.insert r (n - 1) }
  if n - 1 = 0 then
    let rule ← g.rule? r
    let _ ← g.nonterminalName? rule.left
    return s.found rule.left
  else return s

def step? (g : Grammar) (s : Search) : Option Search :=
  match s.pending.pop with
  | none => some s
  | some (n, pending) => (occurrences g n).foldlM (Search.count? g) { s with pending }

end Nullability

def nullableSet? (g : Grammar) : Option (List NonterminalId) :=
  (iterate? Nullability.more (Nullability.step? g) (g.rules.size + 1)
    (Nullability.initial g)).map (·.nullable)

namespace Nullability

open Search

variable {s : Search} {rule : Rule} {rest : List RuleId}

theorem Search.Balanced.count?_eq (linked : g.Linked) (h : s.Balanced g (rule.id :: rest))
    (member : rule ∈ terminalFreeRules g) : s.count? g rule.id = some (s.count g rule.id) := by
  have inRules := (mem_terminalFreeRules.1 member).1
  rw [Search.count?, Search.count, h.remaining rule member, linked.rule?_id inRules]
  simp only [bind, Option.bind_some, Option.getD_some, pure,
    Grammar.nonterminalName?_eq (linked.left rule inRules)]
  generalize _ - 1 = left
  cases left <;> rfl

theorem foldlM_count?_eq (linked : g.Linked) {rs : List RuleId}
    (known : ∀ r ∈ rs, ∃ rule ∈ terminalFreeRules g, rule.id = r) (h : s.Balanced g rs) :
    rs.foldlM (Search.count? g) s = some (rs.foldl (Search.count g) s) := by
  induction rs generalizing s with
  | nil => rfl
  | cons r rest ih =>
    obtain ⟨⟨rule, member, rfl⟩, others⟩ := List.forall_mem_cons.1 known
    rw [List.foldlM_cons, h.count?_eq linked member, List.foldl_cons]
    exact ih others (h.count linked member)

theorem nullableSet?_eq (linked : g.Linked) : nullableSet? g = some (nullableSet g) := by
  have loop : iterate? more (step? g) (g.rules.size + 1) (initial g) =
      some (iterate more (step g) (g.rules.size + 1) (initial g)) := by
    refine iterate?_eq (P := fun s : Search => s.Balanced g [] ∧ s.Complete g [])
      (fun s h ongoing => ?_) _ (initial_balanced linked)
    obtain ⟨balanced, complete, -⟩ := step_balanced linked h.1 h.2 ongoing
    refine ⟨?_, balanced, complete⟩
    obtain ⟨n, pending, popped, -⟩ := WorkList.exists_pop ongoing
    rw [step?, step, popped]
    exact foldlM_count?_eq linked (fun _ => mem_occurrences) (balanced_pop linked h.1 popped).2
  rw [nullableSet?, nullableSet, loop, Option.map_some]

end Nullability

namespace FirstSets

namespace Propagation

def absorb? (subset : TerminalSet) (p : Propagation) (n : NonterminalId) : Option Propagation := do
  let old ← p.sets.get? n
  let new := old ∪ subset
  return if new = old then p else ⟨p.sets.insert n new, p.pending.push n⟩

def addFront (nullable : List NonterminalId) (sets : OrderedMap NonterminalId TerminalSet)
    (rule : Rule) : OrderedMap NonterminalId TerminalSet :=
  match (frontier nullable rule.right.toList).2 with
  | some t => sets.insert rule.left (((sets.get? rule.left).getD ∅).insert t)
  | none => sets

def addFront? (nullable : List NonterminalId) (sets : OrderedMap NonterminalId TerminalSet)
    (rule : Rule) : Option (OrderedMap NonterminalId TerminalSet) :=
  match (frontier nullable rule.right.toList).2 with
  | some t => do return sets.insert rule.left ((← sets.get? rule.left).insert t)
  | none => some sets

def initial? (g : Grammar) (nullable : List NonterminalId) : Option Propagation := do
  let sets ← g.rules.values.foldlM (addFront? nullable) (g.nonterminals.mapValues fun _ _ => ∅)
  return ⟨sets, .ofList ((sets.toList.filter fun (_, set) => !set.isEmpty).map Prod.fst)⟩

/-- As `step`. That a nonterminal has no supersets is no miss. -/
def step? (supersetsOf : OrderedMap NonterminalId (List NonterminalId)) (p : Propagation) :
    Option Propagation :=
  match p.pending.pop with
  | none => some p
  | some (n, pending) => do
    let subset ← p.sets.get? n
    ((supersetsOf.get? n).getD []).foldlM (absorb? subset) { p with pending }

variable {p : Propagation} {nullable : List NonterminalId} {subset : TerminalSet}
  {n : NonterminalId}

/-- There is a set for each nonterminal that is declared, and no other nonterminal waits. -/
structure Keyed (g : Grammar) (p : Propagation) : Prop where
  keys : p.sets.keys = g.nonterminals.keys
  waiting : ∀ n ∈ p.pending.toList, n ∈ g.nonterminals.keys

theorem Keyed.absorb?_eq (h : p.Keyed g) (declared : n ∈ g.nonterminals.keys) :
    absorb? subset p n = some (absorb subset p n) ∧ (absorb subset p n).Keyed g := by
  have present : n ∈ p.sets.keys := h.keys ▸ declared
  refine ⟨?_, (keys_absorb subset present).trans h.keys, fun m member => ?_⟩
  · obtain ⟨old, entry⟩ := OrderedMap.mem_keys_iff.1 present
    rw [absorb?, absorb, entry]
    rfl
  · rcases mem_pending_absorb.1 member with member | ⟨rfl, -⟩
    · exact h.waiting m member
    · exact declared

theorem Keyed.step?_eq (linked : g.Linked) (nullable : List NonterminalId) (h : p.Keyed g)
    (ongoing : more p = true) :
    let supersetsOf := g.nonterminals.mapValues fun n _ => supersets g nullable n
    step? supersetsOf p = some (step supersetsOf p) ∧ (step supersetsOf p).Keyed g := by
  obtain ⟨n, pending, popped, split⟩ := WorkList.exists_pop ongoing
  obtain ⟨subset, entry⟩ :=
    OrderedMap.mem_keys_iff.1 (h.keys ▸ h.waiting n (by rw [split]; exact List.mem_cons_self ..))
  have popped' : Keyed g { p with pending } :=
    ⟨h.keys, fun m member => h.waiting m (by rw [split]; exact List.mem_cons_of_mem _ member)⟩
  intro supersetsOf
  rw [step?, step, popped]
  dsimp only
  rw [entry]
  refine foldlM_eq (fun q m member keyed => keyed.absorb?_eq ?_) popped'
  rw [OrderedMap.get?_mapValues] at member
  cases known : g.nonterminals.get? n with
  | none =>
    rw [known] at member
    cases member
  | some _ =>
    rw [known] at member
    obtain ⟨rule, inRules, -, -, rfl⟩ := mem_supersets.1 member
    exact linked.left rule inRules

theorem initial?_eq (linked : g.Linked) (nullable : List NonterminalId) :
    initial? g nullable = some (initial g nullable) ∧ (initial g nullable).Keyed g := by
  have fronts : g.rules.values.foldlM (addFront? nullable) (g.nonterminals.mapValues fun _ _ => ∅) =
      some (g.rules.values.foldl (addFront nullable) (g.nonterminals.mapValues fun _ _ => ∅)) ∧
      (g.rules.values.foldl (addFront nullable) (g.nonterminals.mapValues fun _ _ => ∅)).keys =
        g.nonterminals.keys := by
    refine foldlM_eq (P := fun sets : OrderedMap NonterminalId TerminalSet =>
      sets.keys = g.nonterminals.keys) (fun sets rule member keys => ?_)
      (OrderedMap.keys_mapValues ..)
    have present : rule.left ∈ sets.keys := keys ▸ linked.left rule member
    obtain ⟨old, entry⟩ := OrderedMap.mem_keys_iff.1 present
    rw [addFront?, addFront, entry]
    cases (frontier nullable rule.right.toList).2 with
    | none => exact ⟨rfl, keys⟩
    | some t => exact ⟨rfl, by rw [OrderedMap.keys_insert, if_pos present, keys]⟩
  refine ⟨?_, fronts.2, fun n member => ?_⟩
  · rw [initial?, fronts.1]
    rfl
  · obtain ⟨e, inSets, rfl⟩ := List.mem_map.1 (WorkList.mem_ofList.1 member)
    rw [← fronts.2]
    exact List.mem_map_of_mem (List.mem_filter.1 inSets).1

end Propagation

/-- As `compute`, where everything that is looked up has to be found. -/
def compute? (g : Grammar) : Option FirstSets := do
  let nullable ← nullableSet? g
  let supersetsOf := g.nonterminals.mapValues fun n _ => supersets g nullable n
  let fuel := g.nonterminals.size * (UInt16.size + 1)
  let p ← iterate? Propagation.more (Propagation.step? supersetsOf) fuel
    (← Propagation.initial? g nullable)
  return ⟨nullable, p.sets⟩

theorem compute?_eq (linked : g.Linked) : compute? g = some (compute g) ∧
    (compute g).sets.keys = g.nonterminals.keys := by
  obtain ⟨found, keyed⟩ := Propagation.initial?_eq linked (nullableSet g)
  have keep (p : Propagation) (keyed : p.Keyed g) (ongoing : p.more = true) :=
    keyed.step?_eq linked (nullableSet g) ongoing
  constructor
  · have loop := iterate?_eq keep (g.nonterminals.size * (UInt16.size + 1)) keyed
    rw [compute?, Nullability.nullableSet?_eq linked]
    simp only [bind, Option.bind_some, found, loop]
    rfl
  · exact (iterate_invariant (fun p keyed ongoing => (keep p keyed ongoing).2) _ _ keyed).keys

def ofSequence? (f : FirstSets) (lookaheads : TerminalSet) : List Symbol → Option TerminalSet
  | [] => some lookaheads
  | .terminal t :: _ => some (.singleton t)
  | .nonterminal n :: rest => do
    let first ← f.sets.get? n
    if f.isNullable n then return first ∪ (← f.ofSequence? lookaheads rest) else return first

theorem ofSequence?_eq {f : FirstSets} {lookaheads : TerminalSet} {symbols : List Symbol}
    (known : ∀ n, .nonterminal n ∈ symbols → n ∈ f.sets.keys) :
    f.ofSequence? lookaheads symbols = some (f.ofSequence lookaheads symbols) := by
  induction symbols with
  | nil => rfl
  | cons X rest ih =>
    have others := ih fun n member => known n (List.mem_cons_of_mem _ member)
    cases X with
    | terminal t => rfl
    | nonterminal n =>
      obtain ⟨set, entry⟩ := OrderedMap.mem_keys_iff.1 (known n (List.mem_cons_self ..))
      rw [ofSequence?, ofSequence, first, entry, others]
      by_cases nullable : f.isNullable n = true <;> simp [nullable]

end FirstSets

end Lalr
