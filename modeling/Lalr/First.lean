import Lalr.Grammar.Basic
import Lalr.Iterate
import Lalr.TerminalSet
import Lalr.WorkList

/-! Nullable nonterminals and FIRST sets. -/
namespace Lalr

def Rule.isTerminalFree (rule : Rule) : Bool :=
  rule.right.toList.all fun s => s.terminal?.isNone

namespace Nullability

/-- For each terminal-free rule the number of symbols on its right not yet known to be
nullable, the nullable nonterminals, and those whose occurrences are still to be counted. -/
structure Search where
  remaining : OrderedMap RuleId Nat
  nullable : List NonterminalId
  pending : WorkList NonterminalId

namespace Search

def found (s : Search) (n : NonterminalId) : Search :=
  if n ∈ s.nullable then s
  else { s with nullable := s.nullable ++ [n], pending := s.pending.push n }

def count (g : Grammar) (s : Search) (r : RuleId) : Search :=
  let left := (s.remaining.get? r).getD 0 - 1
  let s := { s with remaining := s.remaining.insert r left }
  match left, g.rule? r with
  | 0, some rule => s.found rule.left
  | _, _ => s

end Search

def terminalFreeRules (g : Grammar) : List Rule := g.rules.values.filter Rule.isTerminalFree

/-- The terminal-free rules in which `n` occurs, each as often as it does. -/
def occurrences (g : Grammar) (n : NonterminalId) : List RuleId :=
  (terminalFreeRules g).flatMap fun rule =>
    (rule.right.toList.filter (· = .nonterminal n)).map fun _ => rule.id

def initial (g : Grammar) : Search :=
  let rules := terminalFreeRules g
  let empty := rules.filter (·.right.isEmpty)
  empty.foldl (fun s rule => s.found rule.left)
    ⟨.ofList (rules.map fun rule => (rule.id, rule.right.size)), [], .empty⟩

def more (s : Search) : Bool := !s.pending.isEmpty

def step (g : Grammar) (s : Search) : Search :=
  match s.pending.pop with
  | none => s
  | some (n, pending) => (occurrences g n).foldl (Search.count g) { s with pending }

end Nullability

/-- The nullable nonterminals. Each is taken off the work list once. -/
def nullableSet (g : Grammar) : List NonterminalId :=
  (iterate Nullability.more (Nullability.step g) (g.rules.size + 1)
    (Nullability.initial g)).nullable

structure FirstSets where
  nullable : List NonterminalId
  sets : OrderedMap NonterminalId TerminalSet

namespace FirstSets

def isNullable (f : FirstSets) (n : NonterminalId) : Bool := f.nullable.contains n

def first (f : FirstSets) (n : NonterminalId) : TerminalSet := (f.sets.get? n).getD ∅

def ofSymbol (f : FirstSets) : Symbol → TerminalSet
  | .terminal t => .singleton t
  | .nonterminal n => f.first n

/-- The terminals that can begin a form derived from `symbols`, and `lookaheads` if the empty
form can be derived. -/
def ofSequence (f : FirstSets) (lookaheads : TerminalSet) : List Symbol → TerminalSet
  | [] => lookaheads
  | .terminal t :: _ => .singleton t
  | .nonterminal n :: rest =>
    if f.isNullable n then f.first n ∪ f.ofSequence lookaheads rest else f.first n

def ofSequenceFrom (f : FirstSets) (lookaheads : TerminalSet) (symbols : Array Symbol)
    (i : Nat) : TerminalSet :=
  if h : i < symbols.size then
    match symbols[i] with
    | .terminal t => .singleton t
    | .nonterminal n =>
      if f.isNullable n then f.first n ∪ f.ofSequenceFrom lookaheads symbols (i + 1)
      else f.first n
  else lookaheads
termination_by symbols.size - i

theorem ofSequenceFrom_eq (f : FirstSets) (lookaheads : TerminalSet) (symbols : Array Symbol)
    (i : Nat) :
    f.ofSequenceFrom lookaheads symbols i = f.ofSequence lookaheads (symbols.toList.drop i) := by
  fun_induction ofSequenceFrom f lookaheads symbols i with
  | case1 i h t e =>
    rw [List.drop_eq_getElem_cons (by simpa using h)]
    simp [e, ofSequence]
  | case2 i h n e nullable ih =>
    rw [List.drop_eq_getElem_cons (by simpa using h)]
    simp [e, ofSequence, nullable, ih]
  | case3 i h n e nullable =>
    rw [List.drop_eq_getElem_cons (by simpa using h)]
    simp [e, ofSequence, nullable]
  | case4 i h =>
    rw [List.drop_eq_nil_of_le (by simpa using h)]
    rfl

def text (f : FirstSets) (g : Grammar) : String :=
  String.join (f.sets.toList.map fun (n, set) =>
    "First(" ++ g.nonterminalName n ++ ") = \x7b" ++
      ",".intercalate (set.toList.map fun t => " " ++ g.terminalName t) ++ " \x7d" ++
      (if f.isNullable n then " (nullable)" else "") ++ "\n")

/-- What can stand first in a right-hand side: nonterminals as far as those before them are
nullable, and the terminal that ends them. -/
def frontier (nullable : List NonterminalId) : List Symbol →
    List NonterminalId × Option TerminalId
  | [] => ([], none)
  | .terminal t :: _ => ([], some t)
  | .nonterminal n :: rest =>
    if nullable.contains n then
      let (ns, t) := frontier nullable rest
      (n :: ns, t)
    else ([n], none)

/-- The nonterminals whose FIRST sets contain that of `n` because of a single rule. -/
def supersets (g : Grammar) (nullable : List NonterminalId) (n : NonterminalId) :
    List NonterminalId :=
  ((g.rules.values.filter fun rule =>
    rule.left ≠ n && (frontier nullable rule.right.toList).1.contains n).map (·.left)).eraseDups

/-- FIRST sets in the making, and the nonterminals whose growth has to be passed on. -/
structure Propagation where
  sets : OrderedMap NonterminalId TerminalSet
  pending : WorkList NonterminalId

namespace Propagation

def absorb (subset : TerminalSet) (p : Propagation) (n : NonterminalId) : Propagation :=
  let old := (p.sets.get? n).getD ∅
  let new := old ∪ subset
  if new = old then p else ⟨p.sets.insert n new, p.pending.push n⟩

def initial (g : Grammar) (nullable : List NonterminalId) : Propagation :=
  let none : OrderedMap NonterminalId TerminalSet := g.nonterminals.mapValues fun _ _ => ∅
  let sets := g.rules.values.foldl (fun sets rule =>
    match (frontier nullable rule.right.toList).2 with
    | some t => sets.insert rule.left (((sets.get? rule.left).getD ∅).insert t)
    | Option.none => sets) none
  ⟨sets, .ofList ((sets.toList.filter fun (_, set) => !set.isEmpty).map Prod.fst)⟩

def more (p : Propagation) : Bool := !p.pending.isEmpty

def step (supersetsOf : OrderedMap NonterminalId (List NonterminalId)) (p : Propagation) :
    Propagation :=
  match p.pending.pop with
  | none => p
  | some (n, pending) =>
    ((supersetsOf.get? n).getD []).foldl (absorb ((p.sets.get? n).getD ∅)) { p with pending }

end Propagation

/-- FIRST sets as the least solution of the inclusions that the rules ask for. A set grows at
most once for each terminal. -/
def compute (g : Grammar) : FirstSets :=
  let nullable := nullableSet g
  let supersetsOf := g.nonterminals.mapValues fun n _ => supersets g nullable n
  let fuel := g.nonterminals.size * (UInt16.size + 1)
  let p := iterate Propagation.more (Propagation.step supersetsOf) fuel (.initial g nullable)
  ⟨nullable, p.sets⟩

end FirstSets
end Lalr
