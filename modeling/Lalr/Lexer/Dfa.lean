import Lalr.Lexer.ByteClasses
import Lalr.OrderedMap

/-! Deterministic automata that recognize tokens. State 0 is the start; a missing transition
ends a match. -/
namespace Lalr.Lexer

structure DfaState where
  /-- The nondeterministic states that this one stands for, in ascending order. -/
  nfaStates : List Nat
  transitions : OrderedMap Nat Nat
  accept : Option TerminalId
  deriving Inhabited

structure Dfa where
  classes : ByteClasses
  states : Array DfaState

namespace Dfa

def state (d : Dfa) (i : Nat) : DfaState := d.states[i]?.getD ⟨[], ∅, none⟩

def next (d : Dfa) (i : Nat) (byte : UInt8) : Option Nat :=
  (d.state i).transitions.get? (d.classes.get byte)

/-- Run from state `i`, where `best` is the longest match found and `length` bytes have been
read. -/
def matchFrom (d : Dfa) (i length : Nat) (best : Option (TerminalId × Nat)) :
    List UInt8 → Option (TerminalId × Nat)
  | [] => best
  | b :: rest =>
    match d.next i b with
    | none => best
    | some j =>
      let best := match (d.state j).accept with
        | some t => some (t, length + 1)
        | none => best
      d.matchFrom j (length + 1) best rest

/-- The token of the longest prefix of `input` that is accepted and not empty, with the
length of that prefix. -/
def longestMatch (d : Dfa) (input : List UInt8) : Option (TerminalId × Nat) :=
  if d.states.isEmpty then none else d.matchFrom 0 0 none input

/-- Split an input into longest matches, from the front to where none is found: the first error of a
generated lexer. -/
def scan (d : Dfa) (input : List UInt8) : List (TerminalId × Nat) :=
  scanFrom input.length input
where
  /-- At most `fuel` matches; no input has more of them than bytes. -/
  scanFrom : Nat → List UInt8 → List (TerminalId × Nat)
    | 0, _ => []
    | fuel + 1, rest =>
      match d.longestMatch rest with
      | none => []
      | some (t, length) => (t, length) :: scanFrom fuel (rest.drop length)

end Dfa
end Lalr.Lexer
