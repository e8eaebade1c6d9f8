import Lalr.Diagnostic
import Lalr.Grammar.Text
import Lalr.Iterate
import Lalr.WorkList

/-! Checks of a grammar as a whole. Every finding is reported, not only the first. -/
namespace Lalr.Integrity

def checkStart (g : Grammar) : Report :=
  match g.start with
  | none => [{ kind := .malformedGrammar, message := "the grammar has no start symbol" }]
  | some start =>
    if (g.rulesOf start).isEmpty then
      [{ kind := .malformedGrammar
         message := "the start symbol `" ++ g.nonterminalName start ++ "' has no production rules"
         symbol := some (.nonterminal start) }]
    else []

/-- The nonterminals on the right of rules, with the rules, in order of occurrence. The
accepting rule does not count. -/
def uses (g : Grammar) : List (NonterminalId × Rule) :=
  (g.rules.values.filter (·.id ≠ .accept)).flatMap fun rule =>
    (rule.right.toList.filterMap Symbol.nonterminal?).map (·, rule)

def firstUses (seen : List NonterminalId) :
    List (NonterminalId × Rule) → List (NonterminalId × Rule)
  | [] => []
  | (n, rule) :: rest =>
    if seen.contains n then firstUses seen rest
    else (n, rule) :: firstUses (n :: seen) rest

/-- Report each nonterminal that is used but has no rules, once. -/
def checkUndefined (g : Grammar) : Report :=
  let defined := (g.rules.values.map (·.left)).eraseDups
  (firstUses defined (uses g)).map fun (n, rule) =>
    { kind := .undefinedSymbol
      message := "the nonterminal `" ++ g.nonterminalName n ++ "' is used in `" ++
        g.ruleText rule ++ "' but never defined"
      symbol := some (.nonterminal n)
      rule := some rule.id }

/-- Nonterminals found so far, and those whose rules are still to be looked at. -/
structure Reach where
  found : List NonterminalId
  pending : WorkList NonterminalId

namespace Reach

def meet (r : Reach) (n : NonterminalId) : Reach :=
  if r.found.contains n then r else ⟨n :: r.found, r.pending.push n⟩

def more (r : Reach) : Bool := !r.pending.isEmpty

def step (g : Grammar) (r : Reach) : Reach :=
  match r.pending.pop with
  | none => r
  | some (n, pending) =>
    ((g.rulesOf n).flatMap fun rule => rule.right.toList.filterMap Symbol.nonterminal?).foldl
      meet { r with pending }

end Reach

/-- `$start` and the nonterminals that occur in forms derived from `start`. -/
def reachable (g : Grammar) (start : NonterminalId) : List NonterminalId :=
  (iterate Reach.more (Reach.step g) (g.nonterminals.size + 1)
    ⟨[start, .start], WorkList.empty.push start⟩).found

def checkUnreachable (g : Grammar) : Report :=
  match g.start with
  | none => []
  | some start =>
    let found := reachable g start
    (g.nonterminals.keys.filter fun n => !found.contains n).map fun n =>
      { kind := .unreachableSymbol
        message := "the nonterminal `" ++ g.nonterminalName n ++
          "' is unreachable from the start symbol"
        symbol := some (.nonterminal n) }

def check (g : Grammar) : Report := checkStart g ++ checkUndefined g ++ checkUnreachable g

end Lalr.Integrity
