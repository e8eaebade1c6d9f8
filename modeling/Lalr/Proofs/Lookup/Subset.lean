import Lalr.Proofs.Lexer.Recognition
import Lalr.Proofs.Lookup.Loops

/-! The subset construction finds every state that it looks up: those of the nondeterministic
automaton because its edges lead to states, those of its own because they are numbered. -/
namespace Lalr.Lexer

def ByteClasses.get? (c : ByteClasses) (b : UInt8) : Option Nat := c.classOf[b.toNat]?

def ByteClasses.representative? (c : ByteClasses) (k : Nat) : Option (Option UInt8) :=
  allBytes.findM? fun b => (c.get? b).map (· == k)

namespace Nfa

def Search.meet? (n : Nat) (s : Search) (i : Nat) : Option Search :=
  if i < n then some (s.meet i) else none

def Search.step? (nfa : Nfa) (s : Search) : Option Search :=
  match s.pending with
  | [] => some s
  | i :: pending => do
    let state ← nfa.states[i]?
    state.epsilons.foldlM (Search.meet? nfa.states.size) { s with pending }

def epsilonClosure? (nfa : Nfa) (seeds : List Nat) : Option (List Nat) := do
  let first ← seeds.foldlM (Search.meet? nfa.states.size) ⟨∅, []⟩
  let last ← iterate? Search.more (Search.step? nfa) nfa.states.size first
  return last.met.toList

def move? (nfa : Nfa) (states : List Nat) (byte : UInt8) : Option (List Nat) := do
  let targets ← states.mapM fun i => (nfa.states[i]?).map fun s =>
    (s.edges.filter fun e => e.1.contains byte).map Prod.snd
  return sortedSet targets.flatten

def resolveAccept? (nfa : Nfa) (states : List Nat) : Option (Option TokenAccept) := do
  let accepts ← states.filterMapM fun i => (nfa.states[i]?).map (·.accept)
  return accepts.foldl prefer none

end Nfa

namespace Subset.Construction

def intern? (nfa : Nfa) (c : Construction) (set : List Nat) : Option (Nat × Construction) :=
  match c.numbers[set]? with
  | some i => some (i, c)
  | none => do
    let i := c.states.size
    let accept ← nfa.resolveAccept? set
    return (i,
      { states := c.states.push ⟨set, ∅, accept.map (·.terminal)⟩
        numbers := c.numbers.insert set i
        pending := c.pending.push i })

/-- As `addTransition`. That a class has no byte, or that a byte leads nowhere, is no miss. -/
def addTransition? (nfa : Nfa) (classes : ByteClasses) (i : Nat) (c : Construction) (k : Nat) :
    Option Construction := do
  match ← classes.representative? k with
  | none => return c
  | some byte =>
    match ← nfa.move? (← c.states[i]?).nfaStates byte with
    | [] => return c
    | moved =>
      let (j, c) ← c.intern? nfa (← nfa.epsilonClosure? moved)
      let _ ← c.states[i]?
      return { c with
        states := c.states.modify i fun s => { s with transitions := s.transitions.insert k j } }

def step? (nfa : Nfa) (classes : ByteClasses) (c : Construction) : Option Construction :=
  match c.pending.pop with
  | none => some c
  | some (i, pending) => classes.toList.foldlM (addTransition? nfa classes i) { c with pending }

def initial? (nfa : Nfa) : Option Construction := do
  let (_, c) ← ({ states := #[], numbers := ∅, pending := .empty } : Construction).intern? nfa
    (← nfa.epsilonClosure? nfa.starts)
  return c

end Subset.Construction

def Nfa.toDfa? (nfa : Nfa) : Option Dfa := do
  let classes := ByteClasses.compute nfa
  let c ← iterate? Subset.Construction.more (Subset.Construction.step? nfa classes)
    (Nat.pow 2 nfa.states.size) (← Subset.Construction.initial? nfa)
  return ⟨classes, c.states⟩

theorem ByteClasses.get?_compute (nfa : Nfa) (b : UInt8) :
    (compute nfa).get? b = some ((compute nfa).get b) :=
  getElem?_classOf nfa b

theorem ByteClasses.representative?_compute (nfa : Nfa) (k : Nat) :
    (compute nfa).representative? k = some ((compute nfa).representative k) :=
  findM?_eq fun b _ => by rw [get?_compute, Option.map_some]

namespace Nfa

variable {nfa : Nfa} {states seeds : List Nat}

theorem getElem?_states {i : Nat} (small : i < nfa.states.size) :
    nfa.states[i]? = some (nfa.state i) := by
  rw [state, Array.getElem?_eq_getElem small, Option.getD_some]

theorem Search.foldlM_meet?_eq {n : Nat} {s : Search} (small : ∀ i ∈ seeds, i < n) :
    seeds.foldlM (meet? n) s = some (seeds.foldl meet s) :=
  (foldlM_eq (P := fun _ => True) (fun _ i member _ => ⟨if_pos (small i member), trivial⟩)
    trivial).1

theorem Search.Valid.step?_eq (bounded : nfa.EpsilonBounded) {s : Search} (h : s.Valid nfa seeds) :
    s.step? nfa = some (s.step nfa) := by
  rw [Search.step?, Search.step]
  cases waits : s.pending with
  | nil => rfl
  | cons i pending =>
    have small := h.small i (h.waiting i (by simp [waits]))
    dsimp only
    rw [getElem?_states small]
    exact foldlM_meet?_eq (bounded i)

theorem epsilonClosure?_eq (bounded : nfa.EpsilonBounded)
    (places : ∀ i ∈ seeds, i < nfa.states.size) :
    nfa.epsilonClosure? seeds = some (nfa.epsilonClosure seeds) := by
  have loop := iterate?_eq (fun s (valid : Search.Valid nfa seeds s) ongoing =>
    ⟨valid.step?_eq bounded, (Search.step_valid bounded valid ongoing).1⟩) nfa.states.size
    (Search.initial_valid places)
  rw [epsilonClosure?, epsilonClosure, Search.foldlM_meet?_eq places]
  simp only [bind, Option.bind_some, loop]
  rfl

theorem move?_eq (small : ∀ i ∈ states, i < nfa.states.size) (b : UInt8) :
    nfa.move? states b = some (nfa.move states b) := by
  have targets : states.mapM (fun i => (nfa.states[i]?).map fun s =>
      (s.edges.filter fun e => e.1.contains b).map Prod.snd) =
      some (states.map fun i =>
        ((nfa.state i).edges.filter fun e => e.1.contains b).map Prod.snd) :=
    mapM_eq fun i member => by rw [getElem?_states (small i member), Option.map_some]
  rw [move?, targets]
  rfl

theorem resolveAccept?_eq (small : ∀ i ∈ states, i < nfa.states.size) :
    nfa.resolveAccept? states = some (nfa.resolveAccept states) := by
  have accepts : states.filterMapM (fun i => (nfa.states[i]?).map (·.accept)) =
      some (states.filterMap fun i => (nfa.state i).accept) :=
    filterMapM_eq fun i member => by rw [getElem?_states (small i member), Option.map_some]
  rw [resolveAccept?, accepts]
  rfl

end Nfa

namespace Subset.Construction

variable {nfa : Nfa} {c : Construction} {i : Nat} {set : List Nat} {s : DfaState}

theorem intern?_eq (isSet : IsSet nfa set) : c.intern? nfa set = some (c.intern nfa set) := by
  rw [intern?, intern]
  cases c.numbers[set]? with
  | some i => rfl
  | none =>
    dsimp only
    rw [Nfa.resolveAccept?_eq isSet.2]
    rfl

theorem addTransition?_eq (bounded : nfa.Bounded) (h : Sound nfa (.compute nfa) c)
    (here : c.states[i]? = some s) (k : Nat) :
    addTransition? nfa (.compute nfa) i c k = some (addTransition nfa (.compute nfa) i c k) := by
  have isSet := h.sets i s here
  rw [addTransition?, addTransition, ByteClasses.representative?_compute]
  simp only [bind, Option.bind_some]
  cases (ByteClasses.compute nfa).representative k with
  | none => rfl
  | some b =>
    simp only [here, Option.bind_some, Option.getD_some, Nfa.move?_eq isSet.2]
    cases moves : nfa.move s.nfaStates b with
    | nil => rfl
    | cons first rest =>
      have places : ∀ j ∈ first :: rest, j < nfa.states.size := fun j member =>
        lt_of_mem_move bounded (moves ▸ member)
      have isSet' := isSet_epsilonClosure bounded places
      obtain ⟨t, there, -⟩ := (intern_spec h isSet').2.1.states i s here
      simp only [Nfa.epsilonClosure?_eq bounded.epsilons places, intern?_eq isSet', Option.bind_some,
        there]
      rfl

theorem Valid.step?_eq (bounded : nfa.Bounded) (h : Valid nfa (.compute nfa) c)
    (ongoing : c.more = true) :
    c.step? nfa (.compute nfa) = some (c.step nfa (.compute nfa)) := by
  obtain ⟨i, pending, popped, waits⟩ := WorkList.exists_pop ongoing
  have small := h.sound.pending i (by simp [waits])
  have sound : Sound nfa (.compute nfa) { c with pending } :=
    { h.sound with
      pending := fun j member => h.sound.pending j (by rw [waits]; exact .tail _ member) }
  rw [step?, step, popped]
  refine (foldlM_eq (P := fun c : Construction =>
    Sound nfa (.compute nfa) c ∧ ∃ s, c.states[i]? = some s) (fun c k _ kept => ?_)
    ⟨sound, _, Array.getElem?_eq_getElem small⟩).1
  obtain ⟨sound, s, here⟩ := kept
  obtain ⟨sound', grows, -⟩ := addTransition_spec bounded sound here k
  obtain ⟨t, there, -⟩ := grows.states i s here
  exact ⟨addTransition?_eq bounded sound here k, sound', t, there⟩

theorem initial?_eq (bounded : nfa.Bounded) (places : ∀ i ∈ nfa.starts, i < nfa.states.size) :
    initial? nfa = some (initial nfa) := by
  rw [initial?, Nfa.epsilonClosure?_eq bounded.epsilons places]
  simp only [bind, Option.bind_some, intern?_eq (isSet_epsilonClosure bounded places)]
  rfl

end Subset.Construction

theorem Nfa.toDfa?_eq {nfa : Nfa} (bounded : nfa.Bounded)
    (places : ∀ i ∈ nfa.starts, i < nfa.states.size) : nfa.toDfa? = some nfa.toDfa := by
  open Subset.Construction in
  have loop := iterate?_eq (P := Valid nfa (.compute nfa)) (fun c valid ongoing =>
    ⟨valid.step?_eq bounded ongoing, (step_valid bounded valid ongoing).1⟩)
    (Nat.pow 2 nfa.states.size) (initial_valid bounded places (.compute nfa)).1
  rw [toDfa?, toDfa, Subset.Construction.initial?_eq bounded places]
  simp only [bind, Option.bind_some, loop]
  rfl

end Lalr.Lexer
