import Lalr.Lexer.Nfa

/-! Classes of bytes that no edge of an automaton tells apart, numbered in the order of their
smallest bytes. -/
namespace Lalr.Lexer

structure ByteClasses where
  /-- The class of each of the 256 bytes. -/
  classOf : Array Nat
  size : Nat
  deriving DecidableEq

namespace ByteClasses

def signature (labels : List ByteSet) (byte : UInt8) : List Bool :=
  labels.map (·.contains byte)

/-- Classes given out so far: the class of each byte seen, and the signatures of the classes,
both in order. -/
structure Numbering where
  classOf : Array Nat := #[]
  signatures : Array (List Bool) := #[]

def Numbering.add (n : Numbering) (signature : List Bool) : Numbering :=
  match n.signatures.findIdx? (· == signature) with
  | some c => { n with classOf := n.classOf.push c }
  | none => ⟨n.classOf.push n.signatures.size, n.signatures.push signature⟩

def labels (nfa : Nfa) : List ByteSet :=
  nfa.states.toList.flatMap fun s => s.edges.map Prod.fst

def compute (nfa : Nfa) : ByteClasses :=
  let edgeLabels := labels nfa
  let n := allBytes.foldl (fun n b => n.add (signature edgeLabels b)) ({} : Numbering)
  ⟨n.classOf, n.signatures.size⟩

def get (c : ByteClasses) (b : UInt8) : Nat := c.classOf[b.toNat]?.getD 0

def toList (c : ByteClasses) : List Nat := List.range c.size

def bytes (c : ByteClasses) (k : Nat) : List UInt8 := allBytes.filter fun b => c.get b == k

def representative (c : ByteClasses) (k : Nat) : Option UInt8 :=
  allBytes.find? fun b => c.get b == k

end ByteClasses
end Lalr.Lexer
