import Lalr.Proofs.Lexer.LongestMatch
import Lalr.Proofs.Lexer.Refinement
import Mathlib.Data.List.Nodup

/-! The automaton of the coarsest partition accepts what the automaton that was refined accepts:
what leads to a state leads to its block. -/
namespace Lalr.Lexer

namespace Minimal

variable {d : Dfa} {blocks : List (List Nat)} {members : List Nat} {numbers : Array Nat}
  {i j k n B : Nat}

def assignAll (numbers : Array Nat) (blocks : List (List Nat)) (n : Nat) : Array Nat :=
  (blocks.zipIdx n).foldl (fun numbers (members, b) => assign numbers members b) numbers

@[simp] theorem size_assignAll : (assignAll numbers blocks n).size = numbers.size := by
  induction blocks generalizing numbers n with
  | nil => rfl
  | cons members rest ih => exact (ih (n := n + 1)).trans (size_assign numbers members n)

theorem getElem?_assignAll_of_not_mem (other : ∀ members ∈ blocks, i ∉ members) :
    (assignAll numbers blocks n)[i]? = numbers[i]? := by
  induction blocks generalizing numbers n with
  | nil => rfl
  | cons members rest ih =>
    obtain ⟨here, others⟩ := List.forall_mem_cons.1 other
    apply (ih (n := n + 1) others).trans
    simp only [getElem?_assign, if_neg here]

/-- A member of one block only has the number of that block. -/
theorem getElem?_assignAll (there : blocks[B]? = some members) (member : i ∈ members)
    (unique : ∀ (B' : Nat) members', blocks[B']? = some members' → i ∈ members' → B' = B) :
    (assignAll numbers blocks n)[i]? = numbers[i]?.map fun _ => n + B := by
  induction blocks generalizing numbers n B with
  | nil => cases there
  | cons first rest ih =>
    cases B with
    | zero =>
      obtain rfl : first = members := Option.some.inj there
      refine (getElem?_assignAll_of_not_mem (n := n + 1) fun members' inRest member' => ?_).trans ?_
      · obtain ⟨B', there'⟩ := List.getElem?_of_mem inRest
        exact absurd (unique (B' + 1) members' there' member') (Nat.succ_ne_zero B')
      · simp only [getElem?_assign, if_pos member, Nat.add_zero]
    | succ B =>
      have here : i ∉ first := fun inFirst => absurd (unique 0 first rfl inFirst) nofun
      refine (ih (n := n + 1) there fun B' members' there' member' => ?_).trans ?_
      · exact Nat.succ.inj (unique (B' + 1) members' there' member')
      · simp only [getElem?_assign, if_neg here, Nat.add_assoc, Nat.add_comm 1]

section ByToken

variable {m : OrderedMap (Option TerminalId) (List Nat)} {a : Option TerminalId}

def addStates (m : OrderedMap (Option TerminalId) (List Nat)) (states : List (DfaState × Nat)) :
    OrderedMap (Option TerminalId) (List Nat) :=
  states.foldl (fun m (s, i) => m.insert s.accept ((m.get? s.accept).getD [] ++ [i])) m

theorem mem_addStates {states : List (DfaState × Nat)} :
    i ∈ ((addStates m states).get? a).getD [] ↔
      i ∈ (m.get? a).getD [] ∨ ∃ s, (s, i) ∈ states ∧ s.accept = a := by
  induction states generalizing m with
  | nil => simp [addStates]
  | cons e rest ih =>
    refine (ih (m := m.insert e.1.accept ((m.get? e.1.accept).getD [] ++ [e.2]))).trans ?_
    have first : i ∈ ((m.insert e.1.accept ((m.get? e.1.accept).getD [] ++ [e.2])).get? a).getD [] ↔
        i ∈ (m.get? a).getD [] ∨ e.2 = i ∧ e.1.accept = a := by
      rw [OrderedMap.get?_insert]
      split
      · next same => simp [same, eq_comm]
      · next other => simp [Ne.symm other]
    rw [first, or_assoc]
    refine or_congr_right ⟨?_, ?_⟩
    · rintro (⟨rfl, rfl⟩ | ⟨s, member, accepts⟩)
      · exact ⟨e.1, List.mem_cons_self, rfl⟩
      · exact ⟨s, List.mem_cons_of_mem _ member, accepts⟩
    · rintro ⟨s, member, accepts⟩
      rcases List.mem_cons.1 member with rfl | member
      · exact .inl ⟨rfl, accepts⟩
      · exact .inr ⟨s, member, accepts⟩

theorem addStates_ne_nil {states : List (DfaState × Nat)}
    (nonempty : ∀ a l, m.get? a = some l → l ≠ []) {l : List Nat}
    (there : (addStates m states).get? a = some l) : l ≠ [] := by
  induction states generalizing m with
  | nil => exact nonempty a l there
  | cons e rest ih =>
    refine ih (m := m.insert e.1.accept _) (fun a' l' here => ?_) there
    rw [OrderedMap.get?_insert] at here
    split at here
    · cases here
      simp
    · exact nonempty a' l' here

theorem mem_addStates_zipIdx : i ∈ ((addStates ∅ d.states.toList.zipIdx).get? a).getD [] ↔
    i < d.states.size ∧ (d.state i).accept = a := by
  rw [mem_addStates]
  simp only [OrderedMap.get?_empty, Option.getD_none, List.not_mem_nil, false_or,
    List.mem_zipIdx_iff_getElem?, Array.getElem?_toList]
  constructor
  · rintro ⟨s, there, rfl⟩
    rw [Dfa.state, there]
    exact ⟨(Array.getElem?_eq_some_iff.1 there).1, rfl⟩
  · rintro ⟨small, accepts⟩
    rw [Dfa.state, Array.getElem?_eq_getElem small] at accepts
    exact ⟨_, Array.getElem?_eq_getElem small, accepts⟩

/-- A block holds the states of one token. -/
theorem block_spec (there : (blocksByToken d)[B]? = some members) : members ≠ [] ∧
    ∃ a, ((addStates ∅ d.states.toList.zipIdx).keys)[B]? = some a ∧
      ∀ i, i ∈ members ↔ i < d.states.size ∧ (d.state i).accept = a := by
  change (((addStates ∅ d.states.toList.zipIdx).toList).map Prod.snd)[B]? = _ at there
  rw [List.getElem?_map] at there
  obtain ⟨⟨a, l⟩, entry, rfl⟩ := Option.map_eq_some_iff.1 there
  have value := OrderedMap.mem_toList_iff.1 (List.mem_of_getElem? entry)
  refine ⟨addStates_ne_nil (by simp) value, a, ?_, fun i => ?_⟩
  · simp only [OrderedMap.keys, List.getElem?_map, entry, Option.map_some]
  · rw [← mem_addStates_zipIdx, value, Option.getD_some]

theorem block_inj {B' : Nat} {members' : List Nat} (there : (blocksByToken d)[B]? = some members)
    (there' : (blocksByToken d)[B']? = some members') (member : i ∈ members)
    (member' : i ∈ members') : B' = B := by
  obtain ⟨-, a, key, same⟩ := block_spec there
  obtain ⟨-, a', key', same'⟩ := block_spec there'
  obtain rfl : a' = a := ((same' i).1 member').2.symm.trans ((same i).1 member).2
  exact (List.getElem?_inj (List.getElem?_eq_some_iff.1 key').1
    (addStates ∅ d.states.toList.zipIdx).nodup).1 (key'.trans key.symm)

theorem exists_block (small : i < d.states.size) :
    ∃ (B : Nat) (members : List Nat), (blocksByToken d)[B]? = some members ∧ i ∈ members := by
  have member := mem_addStates_zipIdx.2 ⟨small, rfl⟩
  cases value : (addStates ∅ d.states.toList.zipIdx).get? (d.state i).accept with
  | none => simp [value] at member
  | some l =>
    rw [value, Option.getD_some] at member
    have inValues := OrderedMap.mem_values_iff.2 ⟨_, value⟩
    obtain ⟨B, there⟩ := List.getElem?_of_mem inValues
    exact ⟨B, l, there, member⟩

end ByToken

namespace Refinement

section Splitters

variable {classes : ByteClasses} {w : WorkList Splitter} {s : Splitter} {bs : List Nat}

theorem mem_pushSplitters : s ∈ (bs.foldl (pushSplitters classes) w).toList ↔
    (s.block ∈ bs ∧ s.byteClass ∈ classes.toList) ∨ s ∈ w.toList := by
  induction bs generalizing w with
  | nil => simp
  | cons b rest ih =>
    rw [List.foldl_cons, ih, pushSplitters, WorkList.mem_pushAll, List.mem_map, List.mem_cons,
      or_and_right, or_assoc, or_left_comm]
    refine or_congr_left ⟨?_, ?_⟩
    · rintro ⟨k, member, rfl⟩
      exact ⟨rfl, member⟩
    · rintro ⟨rfl, member⟩
      exact ⟨s.byteClass, member, rfl⟩

theorem length_pushSplitters_le : (bs.foldl (pushSplitters classes) w).toList.length ≤
    w.toList.length + classes.size * bs.length := by
  induction bs generalizing w with
  | nil => simp
  | cons b rest ih =>
    have first := WorkList.length_pushAll_le w (classes.toList.map fun k => ⟨b, k⟩)
    have := ih (w := pushSplitters classes w b)
    rw [List.length_map, ByteClasses.toList, List.length_range] at first
    rw [List.foldl_cons, List.length_cons, Nat.mul_succ]
    rw [pushSplitters, ByteClasses.toList] at this ⊢
    omega

end Splitters

theorem blockOf_initial (there : (blocksByToken d)[B]? = some members) (member : i ∈ members) :
    (initial d).blockOf[i]? = some B := by
  obtain ⟨-, a, -, same⟩ := block_spec there
  refine (getElem?_assignAll (n := 0) there member fun B' members' there' member' =>
    block_inj there there' member member').trans ?_
  simp only [Array.getElem?_replicate, if_pos ((same i).1 member).1, Option.map_some, Nat.zero_add]

theorem blockOf_initial_iff : (initial d).blockOf[i]? = some B ↔
    ∃ members, (blocksByToken d)[B]? = some members ∧ i ∈ members := by
  constructor
  · intro here
    have size : (initial d).blockOf.size = d.states.size := by
      refine size_assignAll.trans Array.size_replicate
    have small := (Array.getElem?_eq_some_iff.1 here).1
    rw [size] at small
    obtain ⟨B', members, there, member⟩ := exists_block small
    rw [blockOf_initial there member] at here
    cases here
    exact ⟨members, there, member⟩
  · rintro ⟨members, there, member⟩
    exact blockOf_initial there member

theorem initial_partition (d : Dfa) : Partition d (initial d) := by
  have blocks (B : Nat) : (initial d).blocks[B]? = (blocksByToken d)[B]? := List.getElem?_toArray
  have size : (initial d).blocks.size = (blocksByToken d).length := List.size_toArray
  constructor
  case size => exact size_assignAll.trans Array.size_replicate
  case member =>
    intro B members there i
    rw [blocks] at there
    rw [blockOf_initial_iff, there]
    simp
  case inhabited =>
    intro B le
    rw [size] at le
    have there := List.getElem?_eq_getElem le
    obtain ⟨i, member⟩ := List.exists_mem_of_ne_nil _ (block_spec there).1
    exact ⟨i, blockOf_initial there member⟩
  case lt =>
    intro i B here
    obtain ⟨members, there, -⟩ := blockOf_initial_iff.1 here
    rw [size]
    exact (List.getElem?_eq_some_iff.1 there).1
  case accept =>
    intro B i j at_i at_j
    obtain ⟨members, there, member⟩ := blockOf_initial_iff.1 at_i
    obtain ⟨members', there', member'⟩ := blockOf_initial_iff.1 at_j
    cases there.symm.trans there'
    obtain ⟨-, a, -, same⟩ := block_spec there
    simp only [((same i).1 member).2, ((same j).1 member').2]

theorem initial_valid (d : Dfa) :
    Valid d (initial d) ∧ (initial d).measure d ≤ bound d := by
  have size : (initial d).blocks.size = (blocksByToken d).length := List.size_toArray
  refine ⟨⟨initial_partition d, fun C le k inClasses => .inl ?_⟩, ?_⟩
  · rw [size] at le
    exact mem_pushSplitters.2 (.inl ⟨List.mem_range.2 le, inClasses⟩)
  · have length : (initial d).splitters.toList.length ≤ _ := length_pushSplitters_le
    rw [WorkList.toList_empty, List.length_nil, List.length_range, Nat.zero_add] at length
    rw [measure, bound, size, Nat.mul_add, Nat.mul_left_comm, ← Nat.mul_assoc]
    exact Nat.add_le_add_right length _

end Refinement

/-- The steps allowed are enough to apply all splitters. -/
theorem refine_valid (d : Dfa) :
    Refinement.Valid d (refine d) ∧ (refine d).splitters.toList = [] := by
  obtain ⟨start, enough⟩ := Refinement.initial_valid d
  obtain ⟨valid, done⟩ := iterate_done (P := Refinement.Valid d) (Refinement.measure d)
    (fun r h ongoing => Refinement.step_valid h ongoing) start enough
  refine ⟨valid, WorkList.isEmpty_iff.1 ?_⟩
  simpa [Refinement.more, refine] using done

/-- Once all splitters are applied, the partition is stable. -/
theorem refine_stable (d : Dfa) : Refinement.Partition d (refine d) ∧
    ∀ C < (refine d).blocks.size, ∀ k ∈ d.classes.toList,
      Refinement.Agree (refine d) (Refinement.Enters d (refine d) k C) := by
  obtain ⟨valid, idle⟩ := refine_valid d
  refine ⟨valid.partition, fun C le k inClasses => (valid.settled C le k inClasses).resolve_left ?_⟩
  rw [idle]
  exact List.not_mem_nil

section Leaders

variable {r : Refinement} {m : Nat}

/-- The smallest state of a block leads it. -/
theorem mem_leaders : m ∈ leaders r ↔
    ∃ (B : Nat) (members : List Nat), r.blocks[B]? = some members ∧ members.min? = some m := by
  rw [leaders, mem_sortedSet, List.mem_filterMap]
  constructor
  · rintro ⟨members, inBlocks, least⟩
    obtain ⟨B, there⟩ := List.getElem?_of_mem inBlocks
    exact ⟨B, members, by rwa [Array.getElem?_toList] at there, least⟩
  · rintro ⟨B, members, there, least⟩
    exact ⟨members, Array.mem_toList_iff.2 (Array.mem_of_getElem? there), least⟩

theorem pairwise_leaders (r : Refinement) : (leaders r).Pairwise (· < ·) :=
  (pairwise_sortedSet _).imp Nat.compare_eq_lt.1

/-- A block has one leader. -/
theorem leader_unique (h : Refinement.Partition d r) {m' : Nat} (leads : m ∈ leaders r)
    (leads' : m' ∈ leaders r) (here : r.blockOf[m]? = some B) (here' : r.blockOf[m']? = some B) :
    m' = m := by
  obtain ⟨C, members, there, least⟩ := mem_leaders.1 leads
  obtain ⟨C', members', there', least'⟩ := mem_leaders.1 leads'
  have block := (h.member C members there m).1 (List.min?_mem least)
  have block' := (h.member C' members' there' m').1 (List.min?_mem least')
  cases here.symm.trans block
  cases here'.symm.trans block'
  cases there.symm.trans there'
  exact Option.some.inj (least'.symm.trans least)

def positions (r : Refinement) : Array Nat :=
  (leaders r).zipIdx.foldl (fun numbers (s, n) =>
    numbers.setIfInBounds (r.blockOf[s]?.getD 0) n) (Array.replicate r.blocks.size 0)

theorem positions_eq_assignAll (r : Refinement) : positions r =
    assignAll (Array.replicate r.blocks.size 0)
      ((leaders r).map fun s => [r.blockOf[s]?.getD 0]) 0 := by
  rw [positions, assignAll, List.zipIdx_map, List.foldl_map]
  rfl

/-- The block of a state has a leader, and its position is known. -/
theorem exists_position (h : Refinement.Partition d r) (here : r.blockOf[i]? = some B) :
    ∃ n m : Nat, (leaders r)[n]? = some m ∧ r.blockOf[m]? = some B ∧ m ≤ i ∧
      (positions r)[B]? = some n := by
  have small := h.lt i B here
  have there := Array.getElem?_eq_getElem small
  generalize r.blocks[B] = members at there
  have member := (h.member B members there i).2 here
  obtain ⟨m, least⟩ := Option.isSome_iff_exists.1 (List.isSome_min?_of_mem member)
  have leads : m ∈ leaders r := mem_leaders.2 ⟨B, members, there, least⟩
  have block := (h.member B members there m).1 (List.min?_mem least)
  obtain ⟨n, at_n⟩ := List.getElem?_of_mem leads
  refine ⟨n, m, at_n, block, (List.min?_eq_some_iff.1 least).2 i member, ?_⟩
  have first : ((leaders r).map fun s => [r.blockOf[s]?.getD 0])[n]? = some [B] := by
    simp only [List.getElem?_map, at_n, Option.map_some, block, Option.getD_some]
  rw [positions_eq_assignAll, getElem?_assignAll first List.mem_cons_self, Nat.zero_add,
    Array.getElem?_replicate, if_pos small, Option.map_some]
  -- Another position with this block would have the same leader.
  intro n' single there' member'
  rw [List.getElem?_map] at there'
  obtain ⟨m', at_n', rfl⟩ := Option.map_eq_some_iff.1 there'
  have leads' := List.mem_of_getElem? at_n'
  obtain ⟨B', members', there', least'⟩ := mem_leaders.1 leads'
  have block' := (h.member B' members' there' m').1 (List.min?_mem least')
  rw [block', Option.getD_some, List.mem_singleton] at member'
  subst member'
  obtain rfl := leader_unique h leads leads' block block'
  have nodup : (leaders r).Nodup := (pairwise_leaders r).imp Nat.ne_of_lt
  exact (List.getElem?_inj (List.getElem?_eq_some_iff.1 at_n').1 nodup).1 (at_n'.trans at_n.symm)

end Leaders

end Minimal

namespace Dfa

open Lalr.Lexer.Minimal

variable {d : Dfa} {i j k m n p B : Nat} {b : UInt8}

structure Proper (d : Dfa) : Prop where
  classes : ∀ b, d.classes.get b ∈ d.classes.toList
  targets : ∀ i k j, (d.state i).transitions.get? k = some j → j < d.states.size

/-- The state `p` of the minimal automaton is the block of the state `i`. -/
def Stands (d : Dfa) (i p : Nat) : Prop :=
  ∃ B m : Nat, (refine d).blockOf[i]? = some B ∧ (leaders (refine d))[p]? = some m ∧
    (refine d).blockOf[m]? = some B

theorem state_minimize (large : 1 < d.states.size)
    (leads : (leaders (refine d))[p]? = some m) :
    (d.minimize.state p).accept = (d.state m).accept ∧
      (d.minimize.state p).transitions = (d.state m).transitions.mapValues fun _ j =>
        (positions (refine d))[(refine d).blockOf[j]?.getD 0]?.getD 0 := by
  rw [minimize, if_neg (Nat.not_le_of_lt large), state, positions]
  dsimp only
  rw [List.getElem?_toArray, List.getElem?_map, leads, Option.map_some, Option.getD_some]
  exact ⟨rfl, rfl⟩

theorem classes_minimize (d : Dfa) : d.minimize.classes = d.classes := by
  rw [minimize]
  split <;> rfl

theorem accept_of_stands (large : 1 < d.states.size) (h : d.Stands i p) :
    (d.minimize.state p).accept = (d.state i).accept := by
  obtain ⟨B, m, here, leads, block⟩ := h
  rw [(state_minimize large leads).1]
  exact (refine_stable d).1.accept B m i block here

/-- Where a state moves, the states of its block move into the block of the target. -/
theorem exists_move (targets : ∀ i k j, (d.state i).transitions.get? k = some j → j < d.states.size)
    (inClasses : k ∈ d.classes.toList) (here : (refine d).blockOf[i]? = some B)
    (here' : (refine d).blockOf[m]? = some B) (leads : (d.state i).transitions.get? k = some j) :
    ∃ j' C : Nat, (d.state m).transitions.get? k = some j' ∧ (refine d).blockOf[j]? = some C ∧
      (refine d).blockOf[j']? = some C := by
  obtain ⟨partition, stable⟩ := refine_stable d
  obtain ⟨C, members, at_j, -⟩ := partition.exists_block (targets i k j leads)
  obtain ⟨j', leads', at_j'⟩ :=
    (stable C (partition.lt j C at_j) k inClasses B i m here here').1 ⟨j, leads, at_j⟩
  exact ⟨j', C, leads', at_j, at_j'⟩

/-- Where a state moves, its block moves to the block of the target; where it is stuck, its block
is stuck. -/
theorem next_of_stands (proper : d.Proper) (large : 1 < d.states.size) (h : d.Stands i p)
    (b : UInt8) : (d.next i b = none → d.minimize.next p b = none) ∧
      ∀ j, d.next i b = some j → ∃ q, d.minimize.next p b = some q ∧ d.Stands j q := by
  obtain ⟨B, m, here, leads, block⟩ := h
  have inClasses := proper.classes b
  have moves : d.minimize.next p b = ((d.state m).transitions.get? (d.classes.get b)).map fun j =>
      (positions (refine d))[(refine d).blockOf[j]?.getD 0]?.getD 0 := by
    simp only [next, classes_minimize, (state_minimize large leads).2, OrderedMap.get?_mapValues]
  rw [moves, next]
  generalize d.classes.get b = k at inClasses ⊢
  constructor
  · intro stuck
    rw [Option.map_eq_none_iff]
    by_contra moves
    obtain ⟨j, leads⟩ := Option.ne_none_iff_exists'.1 moves
    obtain ⟨j', -, leads', -⟩ := exists_move proper.targets inClasses block here leads
    rw [stuck] at leads'
    cases leads'
  · intro j leads
    obtain ⟨j', C, leads', at_j, at_j'⟩ := exists_move proper.targets inClasses here block leads
    obtain ⟨q, l, at_q, block', -, position⟩ := exists_position (refine_stable d).1 at_j
    refine ⟨q, ?_, C, l, at_j, at_q, block'⟩
    simp only [leads', Option.map_some, at_j', Option.getD_some, position, Option.getD_some]

theorem token_of_stands (proper : d.Proper) (large : 1 < d.states.size) (h : d.Stands i p)
    (w : List UInt8) : d.minimize.token p w = d.token i w := by
  induction w generalizing i p with
  | nil => exact accept_of_stands large h
  | cons b rest ih =>
    obtain ⟨stuck, moves⟩ := next_of_stands proper large h b
    cases next : d.next i b with
    | none => rw [token_cons_of_next_eq_none next, token_cons_of_next_eq_none (stuck next)]
    | some j =>
      obtain ⟨q, next', stands⟩ := moves j next
      simp only [token_cons next, token_cons next', ih stands]

/-- The start state stays the first. -/
theorem stands_start (large : 1 < d.states.size) : d.Stands 0 0 := by
  have partition := (refine_stable d).1
  obtain ⟨B, -, here, -⟩ := partition.exists_block (i := 0) (Nat.lt_trans Nat.zero_lt_one large)
  obtain ⟨n, m, at_n, block, le, -⟩ := exists_position partition here
  obtain rfl := Nat.le_zero.1 le
  refine ⟨B, 0, here, ?_, block⟩
  have sorted := pairwise_leaders (refine d)
  have member := List.mem_of_getElem? at_n
  cases order : leaders (refine d) with
  | nil => simp [order] at member
  | cons first rest =>
    rw [order] at sorted member
    rcases List.mem_cons.1 member with rfl | later
    · rfl
    · exact absurd ((List.pairwise_cons.1 sorted).1 0 later) (Nat.not_lt_zero _)

/-- The minimal automaton accepts what the automaton accepts. -/
theorem token_minimize (proper : d.Proper) (w : List UInt8) :
    d.minimize.token 0 w = d.token 0 w := by
  by_cases large : 1 < d.states.size
  · exact token_of_stands proper large (stands_start large) w
  · simp only [minimize, if_pos (Nat.le_of_not_lt large)]

end Dfa
end Lalr.Lexer
