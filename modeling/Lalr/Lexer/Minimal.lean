import Lalr.Lexer.Dfa
import Lalr.Iterate
import Lalr.SortedSet
import Lalr.WorkList

/-! Minimal automata by partition refinement. States start out in blocks by the token they
accept; a block is split while some of its states move into another block on a class of bytes
and some do not. -/
namespace Lalr.Lexer

namespace Minimal

/-- A block and a class of bytes: states that enter the block on that class are to be
separated from states that do not. -/
structure Splitter where
  block : Nat
  byteClass : Nat
  deriving DecidableEq, Repr

namespace Splitter

instance : Ord Splitter := ⟨compareLex (compareOn block) (compareOn byteClass)⟩

instance : Std.TransOrd Splitter :=
  inferInstanceAs (Std.TransCmp (compareLex (compareOn block) (compareOn byteClass)))

instance : Std.LawfulEqOrd Splitter where
  eq_of_compare {a b} h := by
    change (compare a.block b.block).then (compare a.byteClass b.byteClass) = .eq at h
    rw [Ordering.then_eq_eq] at h
    cases a; cases b
    simpa using And.intro (Std.LawfulEqOrd.eq_of_compare h.1) (Std.LawfulEqOrd.eq_of_compare h.2)

end Splitter

/-- Blocks of states, the block of each state, and the splitters still to be applied. -/
structure Refinement where
  blocks : Array (List Nat)
  blockOf : Array Nat
  splitters : WorkList Splitter

/-- For each state, the states that enter it, by classes of bytes. -/
def inverse (d : Dfa) : Array (OrderedMap Nat (List Nat)) :=
  let edges := d.states.toList.zipIdx.flatMap fun (s, i) =>
    s.transitions.toList.map fun (k, j) => (i, k, j)
  edges.foldl (fun inv (i, k, j) =>
    inv.modify j fun m => m.insert k ((m.get? k).getD [] ++ [i]))
    (Array.replicate d.states.size ∅)

def blocksByToken (d : Dfa) : List (List Nat) :=
  (d.states.toList.zipIdx.foldl (fun (m : OrderedMap (Option TerminalId) (List Nat)) (s, i) =>
    m.insert s.accept ((m.get? s.accept).getD [] ++ [i])) ∅).values

def assign (blockOf : Array Nat) (members : List Nat) (b : Nat) : Array Nat :=
  members.foldl (fun blockOf s => blockOf.setIfInBounds s b) blockOf

namespace Refinement

def pushSplitters (classes : ByteClasses) (w : WorkList Splitter) (b : Nat) : WorkList Splitter :=
  w.pushAll (classes.toList.map fun k => ⟨b, k⟩)

def initial (d : Dfa) : Refinement :=
  let blocks := blocksByToken d
  { blocks := blocks.toArray
    blockOf := blocks.zipIdx.foldl (fun blockOf (members, b) => assign blockOf members b)
      (Array.replicate d.states.size 0)
    splitters := (List.range blocks.length).foldl (pushSplitters d.classes) .empty }

/-- Split the block `b` into its marked and its other states, if it has both. The marked
states make up the new block. -/
def splitBlock (classes : ByteClasses) (marked : Nat) (r : Refinement) (b : Nat) : Refinement :=
  let (inside, outside) := (r.blocks[b]?.getD []).partition marked.testBit
  if outside.isEmpty then r
  else
    let fresh := r.blocks.size
    { blocks := (r.blocks.setIfInBounds b outside).push inside
      blockOf := assign r.blockOf inside fresh
      splitters := classes.toList.foldl (fun w k => (w.push ⟨b, k⟩).push ⟨fresh, k⟩) r.splitters }

def entering (inv : Array (OrderedMap Nat (List Nat))) (r : Refinement) (s : Splitter) :
    List Nat :=
  (r.blocks[s.block]?.getD []).flatMap fun j =>
    ((inv[j]?.getD ∅).get? s.byteClass).getD []

def more (r : Refinement) : Bool := !r.splitters.isEmpty

def step (classes : ByteClasses) (inv : Array (OrderedMap Nat (List Nat))) (r : Refinement) :
    Refinement :=
  match r.splitters.pop with
  | none => r
  | some (s, splitters) =>
    let states := r.entering inv s
    let marked := states.foldl (fun m i => m ||| 1 <<< i) 0
    let touched := sortedSet (states.map fun i => r.blockOf[i]?.getD 0)
    touched.foldl (splitBlock classes marked) { r with splitters }

/-- A bound on the number of splitters that are ever applied: the first blocks bring one for
each class, and each of the splits brings two. -/
def bound (d : Dfa) : Nat :=
  let first := (blocksByToken d).length
  d.classes.size * (first + 2 * (d.states.size - first))

end Refinement

/-- The coarsest partition that the transitions respect. -/
def refine (d : Dfa) : Refinement :=
  iterate Refinement.more (Refinement.step d.classes (inverse d)) (Refinement.bound d)
    (.initial d)

def leaders (r : Refinement) : List Nat :=
  sortedSet (r.blocks.toList.filterMap List.min?)

end Minimal

open Lalr.Lexer.Minimal in
/-- The automaton whose states are the blocks of the coarsest partition, numbered by their
smallest members. -/
def Dfa.minimize (d : Dfa) : Dfa :=
  if d.states.size ≤ 1 then d
  else
    let r := refine d
    let order := leaders r
    let block (s : Nat) : List Nat := r.blocks[r.blockOf[s]?.getD 0]?.getD []
    let number := order.zipIdx.foldl (fun numbers (s, n) =>
      numbers.setIfInBounds (r.blockOf[s]?.getD 0) n) (Array.replicate r.blocks.size 0)
    let state (s : Nat) : DfaState :=
      { nfaStates := sortedSet ((block s).flatMap fun i => (d.state i).nfaStates)
        transitions := (d.state s).transitions.mapValues fun _ j =>
          number[r.blockOf[j]?.getD 0]?.getD 0
        accept := (d.state s).accept }
    ⟨d.classes, (order.map state).toArray⟩

end Lalr.Lexer
