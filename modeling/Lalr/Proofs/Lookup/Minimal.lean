import Lalr.Proofs.Lexer.Minimal
import Lalr.Proofs.Lookup.Loops

/-! Minimization finds every state, block, mark and number that it looks up. Blocks are numbered
from the start and only grow in number, so a splitter that waits still names a block. -/
namespace Lalr.Lexer

def Dfa.Targeted (d : Dfa) : Prop :=
  ∀ i k j, (d.state i).transitions.get? k = some j → j < d.states.size

namespace Minimal

def inverse? (d : Dfa) : Option (Array (OrderedMap Nat (List Nat))) :=
  let edges := d.states.toList.zipIdx.flatMap fun (s, i) =>
    s.transitions.toList.map fun (k, j) => (i, k, j)
  edges.foldlM (fun inv (i, k, j) =>
    (inv[j]?).map fun _ => inv.modify j fun m => m.insert k ((m.get? k).getD [] ++ [i]))
    (Array.replicate d.states.size ∅)

def assign? (blockOf : Array Nat) (members : List Nat) (b : Nat) : Option (Array Nat) :=
  members.foldlM (fun blockOf s => (blockOf[s]?).map fun _ => blockOf.setIfInBounds s b) blockOf

def mark? (n marked i : Nat) : Option Nat := if i < n then some (marked ||| 1 <<< i) else none

def isMarked? (n marked i : Nat) : Option Bool := if i < n then some (marked.testBit i) else none

namespace Refinement

def initial? (d : Dfa) : Option Refinement := do
  let blocks := blocksByToken d
  let blockOf ← blocks.zipIdx.foldlM (fun blockOf (members, b) => assign? blockOf members b)
    (Array.replicate d.states.size 0)
  return {
    blocks := blocks.toArray
    blockOf
    splitters := (List.range blocks.length).foldl (pushSplitters d.classes) .empty }

def splitBlock? (n : Nat) (classes : ByteClasses) (marked : Nat) (r : Refinement) (b : Nat) :
    Option Refinement := do
  let members ← r.blocks[b]?
  let inside ← members.filterM (isMarked? n marked)
  let outside ← members.filterM fun s => (isMarked? n marked s).map (!·)
  if outside.isEmpty then return r
  else
    let fresh := r.blocks.size
    let blockOf ← assign? r.blockOf inside fresh
    return {
      blocks := (r.blocks.setIfInBounds b outside).push inside
      blockOf
      splitters := classes.toList.foldl (fun w k => (w.push ⟨b, k⟩).push ⟨fresh, k⟩) r.splitters }

/-- As `entering`. That no state enters another one on some class is no miss. -/
def entering? (inv : Array (OrderedMap Nat (List Nat))) (r : Refinement) (s : Splitter) :
    Option (List Nat) := do
  let members ← r.blocks[s.block]?
  let sources ← members.mapM fun j => (inv[j]?).map fun m => (m.get? s.byteClass).getD []
  return sources.flatten

def step? (n : Nat) (classes : ByteClasses) (inv : Array (OrderedMap Nat (List Nat)))
    (r : Refinement) : Option Refinement :=
  match r.splitters.pop with
  | none => some r
  | some (s, splitters) => do
    let states ← r.entering? inv s
    let marked ← states.foldlM (mark? n) 0
    let touched ← states.mapM fun i => r.blockOf[i]?
    (sortedSet touched).foldlM (splitBlock? n classes marked) { r with splitters }

end Refinement

def refine? (d : Dfa) : Option Refinement := do
  iterate? Refinement.more (Refinement.step? d.states.size d.classes (← inverse? d))
    (Refinement.bound d) (← Refinement.initial? d)

def positions? (r : Refinement) : Option (Array Nat) :=
  (leaders r).zipIdx.foldlM (fun numbers (s, n) => do
    let b ← r.blockOf[s]?
    (numbers[b]?).map fun _ => numbers.setIfInBounds b n) (Array.replicate r.blocks.size 0)

def state? (d : Dfa) (r : Refinement) (number : Array Nat) (s : Nat) : Option DfaState := do
  let members ← r.blocks[← r.blockOf[s]?]?
  let leader ← d.states[s]?
  let nfaStates ← members.mapM fun i => (d.states[i]?).map (·.nfaStates)
  let transitions ← leader.transitions.mapValues? fun _ j => (r.blockOf[j]?).bind (number[·]?)
  return ⟨sortedSet nfaStates.flatten, transitions, leader.accept⟩

end Minimal

open Lalr.Lexer.Minimal in
/-- As `minimize`, where everything that is looked up has to be found. -/
def Dfa.minimize? (d : Dfa) : Option Dfa :=
  if d.states.size ≤ 1 then some d
  else do
    let r ← refine? d
    let states ← (leaders r).mapM (state? d r (← positions? r))
    return ⟨d.classes, states.toArray⟩

namespace Minimal

variable {d : Dfa} {blockOf : Array Nat} {members touched : List Nat} {b marked : Nat}

theorem assign?_eq (small : ∀ s ∈ members, s < blockOf.size) :
    assign? blockOf members b = some (assign blockOf members b) := by
  refine (foldlM_eq (P := fun a : Array Nat => a.size = blockOf.size)
    (fun a s member size => ⟨?_, ?_⟩) rfl).1
  · rw [Array.getElem?_eq_getElem (size ▸ small s member), Option.map_some]
  · rw [Array.size_setIfInBounds, size]

theorem inverse?_eq (targets : d.Targeted) :
    inverse? d = some (inverse d) ∧ (inverse d).size = d.states.size := by
  refine foldlM_eq (P := fun a : Array (OrderedMap Nat (List Nat)) => a.size = d.states.size)
    (fun a e member size => ⟨?_, ?_⟩) Array.size_replicate
  · obtain ⟨⟨s, i⟩, inStates, there⟩ := List.mem_flatMap.1 member
    obtain ⟨⟨k, j⟩, entry, rfl⟩ := List.mem_map.1 there
    have state : d.state i = s := by
      have known := List.mem_zipIdx_iff_getElem?.1 inStates
      rw [Array.getElem?_toList] at known
      rw [Dfa.state, known, Option.getD_some]
    have small := targets i k j (state ▸ OrderedMap.mem_toList_iff.1 entry)
    dsimp only
    rw [Array.getElem?_eq_getElem (size ▸ small), Option.map_some]
  · exact Array.size_modify.trans size

namespace Refinement

variable {r : Refinement}

theorem initial?_eq (d : Dfa) : initial? d = some (initial d) := by
  have blockOf : (blocksByToken d).zipIdx.foldlM (fun blockOf (members, b) =>
      assign? blockOf members b) (Array.replicate d.states.size 0) =
      some ((blocksByToken d).zipIdx.foldl (fun blockOf (members, b) =>
        assign blockOf members b) (Array.replicate d.states.size 0)) := by
    refine (foldlM_eq (P := fun a : Array Nat => a.size = d.states.size)
      (fun a e member size => ⟨assign?_eq fun s inBlock => ?_, ?_⟩) Array.size_replicate).1
    · obtain ⟨-, _, -, same⟩ := block_spec (List.mem_zipIdx_iff_getElem?.1 member)
      exact size ▸ ((same s).1 inBlock).1
    · exact (size_assign ..).trans size
  rw [initial?, blockOf]
  rfl

def Waiting (r : Refinement) : Prop := ∀ s ∈ r.splitters.toList, s.block < r.blocks.size

theorem initial_waiting (d : Dfa) : (initial d).Waiting := by
  intro s pending
  rcases mem_pushSplitters.1 pending with ⟨inRange, -⟩ | none
  · exact List.mem_range.1 inRange
  · cases none

theorem splitBlock?_eq (h : Partition d r) (small : b < r.blocks.size) :
    splitBlock? d.states.size d.classes marked r b = some (splitBlock d.classes marked r b) := by
  have there := Array.getElem?_eq_getElem small
  generalize r.blocks[b] = members at there
  have inBounds : ∀ s ∈ members, s < r.blockOf.size := fun s member =>
    (Array.getElem?_eq_some_iff.1 ((h.member b members there s).1 member)).1
  have marks (s : Nat) (member : s ∈ members) :
      isMarked? d.states.size marked s = some (marked.testBit s) :=
    if_pos (h.size ▸ inBounds s member)
  have inside := filterM_eq marks
  have outside := filterM_eq (fun s member =>
    (congrArg (Option.map (!·)) (marks s member)).trans (Option.map_some ..))
  rw [splitBlock?, splitBlock, there]
  simp only [bind, Option.bind_some, inside, outside, Option.getD_some,
    List.partition_eq_filter_filter, Function.comp_def]
  split
  · rfl
  · rw [assign?_eq fun s member => inBounds s (List.mem_filter.1 member).1]
    rfl

theorem Splits.waiting {r' : Refinement} (h : Splits d marked b r r') (small : b < r.blocks.size)
    (waiting : r.Waiting) : r'.Waiting := by
  intro s pending
  rw [h.blocks]
  rcases (h.splitters s).1 pending with old | ⟨k, -, rfl | rfl⟩
  · exact Nat.lt_succ_of_lt (waiting s old)
  · exact Nat.lt_succ_of_lt small
  · exact Nat.lt_succ_self _

/-- Splitting the touched blocks one after the other finds each of them. -/
theorem foldlM_splitBlock?_eq (h : Working d marked touched r) (nodup : touched.Nodup)
    (waiting : r.Waiting) : touched.foldlM (splitBlock? d.states.size d.classes marked) r =
      some (touched.foldl (splitBlock d.classes marked) r) ∧
    (touched.foldl (splitBlock d.classes marked) r).Waiting := by
  induction touched generalizing r with
  | nil => exact ⟨rfl, waiting⟩
  | cons b rest ih =>
    obtain ⟨fresh, nodup⟩ := List.nodup_cons.1 nodup
    have inside := h.touched b (List.mem_cons_self ..)
    have small : b < r.blocks.size := by
      obtain ⟨i, here, -⟩ := inside
      exact h.partition.lt i b here
    have waiting' : (splitBlock d.classes marked r b).Waiting := by
      rcases splitBlock_spec h.partition small inside with ⟨-, eq⟩ | splits
      · rwa [eq]
      · exact splits.waiting small waiting
    rw [List.foldlM_cons, splitBlock?_eq h.partition small]
    exact ih (working_splitBlock h fresh).1 nodup waiting'

theorem entering?_eq (targets : d.Targeted) (h : Partition d r) {s : Splitter}
    (small : s.block < r.blocks.size) :
    r.entering? (inverse d) s = some (r.entering (inverse d) s) := by
  have there := Array.getElem?_eq_getElem small
  generalize r.blocks[s.block] = members at there
  have sources : members.mapM (fun j =>
      ((inverse d)[j]?).map fun m => (m.get? s.byteClass).getD []) =
      some (members.map fun j => (((inverse d)[j]?.getD ∅).get? s.byteClass).getD []) := by
    refine mapM_eq fun j member => ?_
    have small := (Array.getElem?_eq_some_iff.1 ((h.member _ members there j).1 member)).1
    rw [h.size, ← (inverse?_eq targets).2] at small
    rw [Array.getElem?_eq_getElem small]
    rfl
  rw [entering?, entering, there]
  simp only [bind, Option.bind_some, sources]
  rfl

theorem step?_eq (targets : d.Targeted) (h : Valid d r) (waiting : r.Waiting)
    (ongoing : r.more = true) :
    r.step? d.states.size d.classes (inverse d) = some (r.step d.classes (inverse d)) ∧
      (r.step d.classes (inverse d)).Waiting := by
  obtain ⟨s, splitters, popped, waits⟩ := WorkList.exists_pop ongoing
  have small := waiting s (by rw [waits]; exact List.mem_cons_self ..)
  have inBounds : ∀ i ∈ r.entering (inverse d) s, i < r.blockOf.size := fun i member =>
    h.partition.lt_of_enters ((mem_entering h.partition).1 member)
  have marked : (r.entering (inverse d) s).foldlM (mark? d.states.size) 0 =
      some ((r.entering (inverse d) s).foldl (fun m i => m ||| 1 <<< i) 0) :=
    (foldlM_eq (P := fun _ => True) (fun _ i member _ =>
      ⟨if_pos (h.partition.size ▸ inBounds i member), trivial⟩) trivial).1
  have touched : (r.entering (inverse d) s).mapM (fun i => r.blockOf[i]?) =
      some ((r.entering (inverse d) s).map fun i => r.blockOf[i]?.getD 0) :=
    mapM_eq fun i member => by rw [Array.getElem?_eq_getElem (inBounds i member), Option.getD_some]
  rw [step?, step, popped]
  simp only [entering?_eq targets h.partition small, bind, Option.bind_some, marked, touched]
  refine foldlM_splitBlock?_eq (working_entering h waits) (nodup_sortedSet _) ?_
  exact fun s member => waiting s (by rw [waits]; exact List.mem_cons_of_mem _ member)

end Refinement

theorem refine?_eq (targets : d.Targeted) : refine? d = some (refine d) := by
  have loop := iterate?_eq (P := fun r => Refinement.Valid d r ∧ r.Waiting)
    (fun r kept ongoing => by
      obtain ⟨found, waiting⟩ := Refinement.step?_eq targets kept.1 kept.2 ongoing
      exact ⟨found, (Refinement.step_valid kept.1 ongoing).1, waiting⟩)
    (Refinement.bound d) ⟨(Refinement.initial_valid d).1, Refinement.initial_waiting d⟩
  rw [refine?, (inverse?_eq targets).1, Refinement.initial?_eq]
  exact loop

theorem exists_block_of_leader {r : Refinement} (h : Refinement.Partition d r) {s : Nat}
    (leads : s ∈ leaders r) :
    ∃ B members, r.blockOf[s]? = some B ∧ r.blocks[B]? = some members := by
  obtain ⟨B, members, there, least⟩ := mem_leaders.1 leads
  exact ⟨B, members, (h.member B members there s).1 (List.min?_mem least), there⟩

theorem positions?_eq {r : Refinement} (h : Refinement.Partition d r) :
    positions? r = some (positions r) := by
  refine (foldlM_eq (P := fun a : Array Nat => a.size = r.blocks.size)
    (fun a e member size => ?_) Array.size_replicate).1
  have leads : e.1 ∈ leaders r := List.mem_of_getElem? (List.mem_zipIdx_iff_getElem?.1 member)
  obtain ⟨B, members, here, -⟩ := exists_block_of_leader h leads
  have small : B < a.size := size ▸ h.lt e.1 B here
  dsimp only
  rw [here, Array.size_setIfInBounds]
  simp only [bind, Option.bind_some, Array.getElem?_eq_getElem small, Option.map_some,
    Option.getD_some]
  exact ⟨trivial, size⟩

theorem state?_eq (proper : d.Proper) {s : Nat} (leads : s ∈ leaders (refine d)) :
    state? d (refine d) (positions (refine d)) s = some {
      nfaStates := sortedSet (((refine d).blocks[(refine d).blockOf[s]?.getD 0]?.getD []).flatMap
        fun i => (d.state i).nfaStates)
      transitions := (d.state s).transitions.mapValues fun _ j =>
        (positions (refine d))[(refine d).blockOf[j]?.getD 0]?.getD 0
      accept := (d.state s).accept } := by
  have partition := (refine_stable d).1
  have state {i B : Nat} (here : (refine d).blockOf[i]? = some B) :
      d.states[i]? = some (d.state i) := by
    have small := (Array.getElem?_eq_some_iff.1 here).1
    rw [partition.size] at small
    rw [Dfa.state, Array.getElem?_eq_getElem small, Option.getD_some]
  obtain ⟨B, members, here, there⟩ := exists_block_of_leader partition leads
  have nfaStates : members.mapM (fun i => (d.states[i]?).map (·.nfaStates)) =
      some (members.map fun i => (d.state i).nfaStates) := mapM_eq fun i member => by
    rw [state ((partition.member B members there i).1 member), Option.map_some]
  have transitions : (d.state s).transitions.mapValues? (fun _ j =>
      ((refine d).blockOf[j]?).bind ((positions (refine d))[·]?)) =
      some ((d.state s).transitions.mapValues fun _ j =>
        (positions (refine d))[(refine d).blockOf[j]?.getD 0]?.getD 0) := by
    refine OrderedMap.mapValues?_eq fun k j entry => ?_
    obtain ⟨C, -, block, -⟩ := partition.exists_block (proper.targets s k j entry)
    obtain ⟨n, -, -, -, -, position⟩ := exists_position partition block
    rw [block, Option.bind_some, Option.getD_some, position, Option.getD_some]
  rw [state?, here]
  simp only [bind, Option.bind_some, there, state here, nfaStates, transitions, Option.getD_some]
  rfl

end Minimal

open Lalr.Lexer.Minimal in
theorem Dfa.minimize?_eq {d : Dfa} (proper : d.Proper) : d.minimize? = some d.minimize := by
  rw [minimize?, minimize]
  split
  · rfl
  · rw [refine?_eq proper.targets]
    simp only [bind, Option.bind_some, positions?_eq (refine_stable d).1,
      mapM_eq fun s leads => state?_eq proper leads]
    rfl

/-- A transition to a state that is not there would be noticed. -/
example : (Dfa.mk (.compute .empty)
    #[⟨[], OrderedMap.empty.insert 0 2, none⟩, ⟨[], ∅, none⟩]).minimize? = none := by
  rfl

end Lalr.Lexer
