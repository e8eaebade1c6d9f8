import Lalr.Lexer.Dfa
import Lalr.WorkList

/-! Subset construction: the deterministic automaton whose states are the sets of states that
an automaton can be in. -/
namespace Lalr.Lexer

namespace Subset

/-- The states found so far, their numbers by the sets they stand for, and the numbers of
those whose transitions are still missing. -/
structure Construction where
  states : Array DfaState
  numbers : Std.TreeMap (List Nat) Nat
  pending : WorkList Nat

namespace Construction

def intern (nfa : Nfa) (c : Construction) (set : List Nat) : Nat × Construction :=
  match c.numbers[set]? with
  | some i => (i, c)
  | none =>
    let i := c.states.size
    (i,
      { states := c.states.push ⟨set, ∅, (nfa.resolveAccept set).map (·.terminal)⟩
        numbers := c.numbers.insert set i
        pending := c.pending.push i })

def addTransition (nfa : Nfa) (classes : ByteClasses) (i : Nat) (c : Construction) (k : Nat) :
    Construction :=
  match classes.representative k with
  | none => c
  | some byte =>
    match nfa.move (c.states[i]?.getD default).nfaStates byte with
    | [] => c
    | moved =>
      let (j, c) := c.intern nfa (nfa.epsilonClosure moved)
      { c with
        states := c.states.modify i fun s => { s with transitions := s.transitions.insert k j } }

def more (c : Construction) : Bool := !c.pending.isEmpty

def step (nfa : Nfa) (classes : ByteClasses) (c : Construction) : Construction :=
  match c.pending.pop with
  | none => c
  | some (i, pending) =>
    classes.toList.foldl (addTransition nfa classes i) { c with pending }

def initial (nfa : Nfa) : Construction :=
  (({ states := #[], numbers := ∅, pending := .empty } : Construction).intern nfa
    (nfa.epsilonClosure nfa.starts)).2

end Construction
end Subset

/-- The deterministic automaton of `nfa`. It has at most one state for each set of states. -/
def Nfa.toDfa (nfa : Nfa) : Dfa :=
  let classes := ByteClasses.compute nfa
  let c := iterate Subset.Construction.more (Subset.Construction.step nfa classes)
    (Nat.pow 2 nfa.states.size) (.initial nfa)
  ⟨classes, c.states⟩

end Lalr.Lexer
