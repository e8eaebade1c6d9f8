import Lalr.Automaton.Basic

/-! Construction of the LALR(1) automaton. States are known by the items of their kernels;
the lookaheads of item sets with equal kernels are merged. When the lookaheads of a state
grow, the state is visited again, so that the growth reaches its successors. -/
namespace Lalr

structure Construction where
  kernels : Array ItemSet
  edges : Array (OrderedMap Symbol Nat)
  /-- The states by the items of their kernels. -/
  numbers : Std.TreeMap (List Item) Nat
  pending : WorkList Nat

/-- The kernels that reading one symbol leads to, in the order in which the symbols are found
behind markers. -/
def successors (g : Grammar) (items : ItemSet) : OrderedMap Symbol ItemSet :=
  items.toList.foldl (fun kernels (i, lookaheads) =>
    match i.nextSymbol g with
    | none => kernels
    | some symbol =>
      kernels.insert symbol (((kernels.get? symbol).getD ∅).addLookaheads i.advance lookaheads))
    ∅

namespace Construction

def initial : Construction where
  kernels := #[OrderedMap.empty.insert .initial (.singleton .endOfInput)]
  edges := #[∅]
  numbers := (∅ : Std.TreeMap (List Item) Nat).insert [.initial] 0
  pending := WorkList.empty.push 0

def merge (c : Construction) (i : Nat) (kernel : ItemSet) : Construction :=
  let old := c.kernels[i]?.getD ∅
  let new := kernel.toList.foldl (fun items (k, lookaheads) => items.addLookaheads k lookaheads) old
  if new = old then c
  else { c with kernels := c.kernels.setIfInBounds i new, pending := c.pending.push i }

/-- The state of a kernel, which is new if no state has the same items. -/
def intern (c : Construction) (kernel : ItemSet) : Except AutomatonError (Nat × Construction) :=
  match c.numbers[kernel.keys]? with
  | some i => .ok (i, c.merge i kernel)
  | none =>
    let i := c.kernels.size
    if stateLimit ≤ i then .error .tooManyStates
    else
      .ok (i,
        { kernels := c.kernels.push kernel
          edges := c.edges.push ∅
          numbers := c.numbers.insert kernel.keys i
          pending := c.pending.push i })

def internAll (c : Construction) (edges : OrderedMap Symbol Nat) :
    List (Symbol × ItemSet) → Except AutomatonError (OrderedMap Symbol Nat × Construction)
  | [] => .ok (edges, c)
  | (symbol, kernel) :: rest =>
    match c.intern kernel.sortKeys with
    | .error e => .error e
    | .ok (i, c) => c.internAll (edges.insert symbol i) rest

def more (c : Construction) : Bool := !c.pending.isEmpty

def step (g : Grammar) (first : FirstSets) (c : Construction) :
    Except AutomatonError Construction :=
  match c.pending.pop with
  | none => .ok c
  | some (i, pending) =>
    let items := closure g first (c.kernels[i]?.getD ∅)
    match { c with pending }.internAll ∅ (successors g items).toList with
    | .error e => .error e
    | .ok (edges, c) => .ok { c with edges := c.edges.setIfInBounds i edges }

/-- A bound on the visits: one for each state, and one for each lookahead that an item of a
kernel can gain. -/
def visitLimit (g : Grammar) : Nat :=
  stateLimit + stateLimit * g.items.length * UInt16.size + 1

def finish (g : Grammar) (first : FirstSets) (kernel : ItemSet) (edges : OrderedMap Symbol Nat) :
    State where
  kernel := kernel.keys
  items := closure g first kernel
  shifts := .ofList (edges.toList.filterMap fun (s, i) => s.terminal?.map (·, i))
  gotos := .ofList (edges.toList.filterMap fun (s, i) => s.nonterminal?.map (·, i))

end Construction

/-- The LALR(1) automaton. Without a start symbol it has no states. -/
def Automaton.construct (g : Grammar) (first : FirstSets) : Except AutomatonError Automaton :=
  match g.acceptRule with
  | none => .ok ⟨#[]⟩
  | some _ =>
    match iterateExcept Construction.more (Construction.step g first)
      (Construction.visitLimit g) .initial with
    | .error e => .error e
    | .ok c => .ok ⟨c.kernels.zipWith (Construction.finish g first) c.edges⟩

end Lalr
