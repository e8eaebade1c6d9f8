import Std.Data.TreeSet

/-! Identifiers of terminals, nonterminals and production rules. They are 16-bit numbers
handed out in order of declaration; the first ones are reserved. -/
namespace Lalr

structure TerminalId where
  raw : UInt16
  deriving DecidableEq, Repr, Inhabited

structure NonterminalId where
  raw : UInt16
  deriving DecidableEq, Repr, Inhabited

structure RuleId where
  raw : UInt16
  deriving DecidableEq, Repr, Inhabited

namespace TerminalId

def endOfInput : TerminalId := ⟨0⟩

/-- What the grammar file writes `@error`. -/
def error : TerminalId := ⟨1⟩

/-- Text between tokens; no rule mentions it. -/
def whitespace : TerminalId := ⟨2⟩

def firstFree : TerminalId := ⟨3⟩

def next (t : TerminalId) : TerminalId := ⟨t.raw + 1⟩

instance : Ord TerminalId := ⟨compareOn raw⟩

instance : Std.TransOrd TerminalId := inferInstanceAs (Std.TransCmp (compareOn raw))

instance : Std.LawfulEqOrd TerminalId where
  eq_of_compare {a b} h := by
    cases a; cases b; exact congrArg mk (Std.LawfulEqOrd.eq_of_compare h)

end TerminalId

namespace NonterminalId

/-- The left-hand side of the accepting rule. -/
def start : NonterminalId := ⟨0⟩

def firstFree : NonterminalId := ⟨1⟩

def next (n : NonterminalId) : NonterminalId := ⟨n.raw + 1⟩

instance : Ord NonterminalId := ⟨compareOn raw⟩

instance : Std.TransOrd NonterminalId := inferInstanceAs (Std.TransCmp (compareOn raw))

instance : Std.LawfulEqOrd NonterminalId where
  eq_of_compare {a b} h := by
    cases a; cases b; exact congrArg mk (Std.LawfulEqOrd.eq_of_compare h)

end NonterminalId

namespace RuleId

def accept : RuleId := ⟨0⟩

def firstFree : RuleId := ⟨1⟩

def next (r : RuleId) : RuleId := ⟨r.raw + 1⟩

instance : Ord RuleId := ⟨compareOn raw⟩

instance : Std.TransOrd RuleId := inferInstanceAs (Std.TransCmp (compareOn raw))

instance : Std.LawfulEqOrd RuleId where
  eq_of_compare {a b} h := by
    cases a; cases b; exact congrArg mk (Std.LawfulEqOrd.eq_of_compare h)

end RuleId

inductive Symbol where
  | terminal (t : TerminalId)
  | nonterminal (n : NonterminalId)
  deriving DecidableEq, Repr, Inhabited

namespace Symbol

def terminal? : Symbol → Option TerminalId
  | .terminal t => some t
  | .nonterminal _ => none

def nonterminal? : Symbol → Option NonterminalId
  | .terminal _ => none
  | .nonterminal n => some n

end Symbol
end Lalr
