import Lalr.Lexer.ByteSet
import Lalr.Iterate
import Lalr.SortedSet
import Lalr.Symbol
import Std.Data.TreeSet

/-! Nondeterministic automata over bytes. States are numbered in order of creation. -/
namespace Lalr.Lexer

structure TokenAccept where
  terminal : TerminalId
  /-- Of several tokens the one of lowest priority is taken. -/
  priority : Nat
  deriving DecidableEq, Repr

structure NfaState where
  edges : List (ByteSet × Nat) := []
  epsilons : List Nat := []
  accept : Option TokenAccept := none
  deriving DecidableEq, Inhabited

/-- Automata of several tokens side by side; each token has one start state. -/
structure Nfa where
  states : Array NfaState := #[]
  starts : List Nat := []

structure Fragment where
  start : Nat
  accept : Nat
  deriving DecidableEq, Repr

namespace Nfa

def empty : Nfa := {}

def state (nfa : Nfa) (i : Nat) : NfaState := nfa.states[i]?.getD {}

def addState (nfa : Nfa) : Nat × Nfa :=
  (nfa.states.size, { nfa with states := nfa.states.push {} })

def addEdge (nfa : Nfa) (source : Nat) (label : ByteSet) (target : Nat) : Nfa :=
  { nfa with
    states := nfa.states.modify source fun s => { s with edges := s.edges ++ [(label, target)] } }

def addEpsilon (nfa : Nfa) (source target : Nat) : Nfa :=
  { nfa with
    states := nfa.states.modify source fun s => { s with epsilons := s.epsilons ++ [target] } }

def addToken (nfa : Nfa) (f : Fragment) (accept : TokenAccept) : Nfa where
  states := nfa.states.modify f.accept fun s => { s with accept := some accept }
  starts := nfa.starts ++ [f.start]

/-- A search along epsilon edges: the states met so far, and those among them whose edges
have not been followed yet. -/
structure Search where
  met : Std.TreeSet Nat
  pending : List Nat

namespace Search

def meet (s : Search) (i : Nat) : Search :=
  if s.met.contains i then s else ⟨s.met.insert i, i :: s.pending⟩

def more (s : Search) : Bool := !s.pending.isEmpty

def step (nfa : Nfa) (s : Search) : Search :=
  match s.pending with
  | [] => s
  | i :: pending => (nfa.state i).epsilons.foldl meet { s with pending }

end Search

/-- The states that epsilon edges reach from `seeds`, in ascending order. -/
def epsilonClosure (nfa : Nfa) (seeds : List Nat) : List Nat :=
  let first := seeds.foldl Search.meet ⟨∅, []⟩
  (iterate Search.more (Search.step nfa) nfa.states.size first).met.toList

def move (nfa : Nfa) (states : List Nat) (byte : UInt8) : List Nat :=
  sortedSet (states.flatMap fun i =>
    ((nfa.state i).edges.filter fun e => e.1.contains byte).map Prod.snd)

/-- The one of two tokens that wins, the first if their priorities are equal. -/
def prefer (best : Option TokenAccept) (a : TokenAccept) : Option TokenAccept :=
  match best with
  | none => some a
  | some b => if a.priority < b.priority then some a else some b

/-- The accepted token of lowest priority, the first one in the list if several share it. -/
def resolveAccept (nfa : Nfa) (states : List Nat) : Option TokenAccept :=
  (states.filterMap fun i => (nfa.state i).accept).foldl prefer none

end Nfa
end Lalr.Lexer
