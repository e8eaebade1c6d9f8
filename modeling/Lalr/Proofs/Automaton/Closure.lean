import Lalr.Automaton.Closure
import Lalr.Proofs.Automaton.Canonical
import Lalr.Proofs.First.Exact

/-! The closure of a kernel is the closure of LR(1) item sets. The loop adds only what the
closure asks for, and an item that does not wait any more has passed on what it asks for. -/
namespace Lalr

def ItemSet.lookaheadSet (items : ItemSet) : LookaheadSet where
  core i := i ∈ items.keys
  lookahead i t := t ∈ (items.get? i).getD ∅

theorem ItemSet.supported (items : ItemSet) : items.lookaheadSet.Supported := by
  intro i t member
  apply Classical.byContradiction
  intro missing
  have none : items.get? i = none := OrderedMap.get?_eq_none_iff.2 missing
  have : t ∈ (items.get? i).getD ∅ := member
  simp [none] at this

namespace Closing

open Grammar LookaheadSet

variable {g : Grammar} {kernel : ItemSet} {c : Closing} {i j : Item} {t : TerminalId}
  {lookaheads : TerminalSet} {rule : Rule} {rules : List Rule} {slots : List Item}

def set (c : Closing) (i : Item) : TerminalSet := (c.items.get? i).getD ∅

theorem mem_keys_demand :
    j ∈ (demand lookaheads c rule).items.keys ↔ j = ⟨rule.id, 0⟩ ∨ j ∈ c.items.keys := by
  unfold demand
  dsimp only
  split
  · exact OrderedMap.mem_keys_insert
  · next entry =>
    split
    · refine (or_iff_right_of_imp ?_).symm
      rintro rfl
      exact OrderedMap.mem_keys_of_get? entry
    · exact OrderedMap.mem_keys_insert

theorem mem_set_demand : t ∈ (demand lookaheads c rule).set j ↔
    t ∈ c.set j ∨ j = ⟨rule.id, 0⟩ ∧ t ∈ lookaheads := by
  unfold demand set
  dsimp only
  split
  · next fresh =>
    rw [OrderedMap.get?_insert]
    by_cases here : j = ⟨rule.id, 0⟩ <;> simp [here, fresh]
  · next old entry =>
    split
    · next same =>
      refine (or_iff_left_of_imp ?_).symm
      rintro ⟨rfl, member⟩
      rw [entry, Option.getD_some, ← same]
      exact TerminalSet.mem_union.2 (.inr member)
    · rw [OrderedMap.get?_insert]
      by_cases here : j = ⟨rule.id, 0⟩ <;> simp [here, entry]

theorem mem_pending_demand : j ∈ (demand lookaheads c rule).pending.toList ↔
    j ∈ c.pending.toList ∨
      j = ⟨rule.id, 0⟩ ∧ (demand lookaheads c rule).items.get? j ≠ c.items.get? j := by
  unfold demand
  dsimp only
  split
  · next fresh =>
    rw [WorkList.mem_push, OrderedMap.get?_insert]
    by_cases here : j = ⟨rule.id, 0⟩ <;> simp [here, fresh]
  · next entry =>
    split
    · simp
    · next grows =>
      rw [WorkList.mem_push, OrderedMap.get?_insert]
      by_cases here : j = ⟨rule.id, 0⟩ <;> simp [here, entry, grows]

theorem get?_demand_of_ne (other : j ≠ ⟨rule.id, 0⟩) :
    (demand lookaheads c rule).items.get? j = c.items.get? j := by
  unfold demand
  dsimp only
  split
  · simp only [OrderedMap.get?_insert, if_neg other]
  · split
    · rfl
    · simp only [OrderedMap.get?_insert, if_neg other]

theorem room_demand (place : ⟨rule.id, 0⟩ ∈ slots) :
    (demand lookaheads c rule).pending.toList.length +
        roomAt (demand lookaheads c rule).items slots ≤
      c.pending.toList.length + roomAt c.items slots := by
  have pushed := WorkList.length_push_le c.pending ⟨rule.id, 0⟩
  unfold demand
  dsimp only
  split
  · next fresh =>
    have less : roomAt (c.items.insert ⟨rule.id, 0⟩ lookaheads) slots < roomAt c.items slots :=
      roomAt_insert_lt place (by rw [fresh]; exact Nat.lt_succ_of_le lookaheads.room_le)
    dsimp only
    omega
  · next old entry =>
    split
    · exact Nat.le_refl _
    · next grows =>
      have less : roomAt (c.items.insert ⟨rule.id, 0⟩ (old ∪ lookaheads)) slots <
          roomAt c.items slots :=
        roomAt_insert_lt place (by rw [entry]; exact TerminalSet.room_union_lt grows)
      dsimp only
      omega

structure Demanded (slots : List Item) (lookaheads : TerminalSet) (rules : List Rule)
    (c c' : Closing) : Prop where
  keys : ∀ j, j ∈ c'.items.keys ↔ (∃ rule ∈ rules, j = ⟨rule.id, 0⟩) ∨ j ∈ c.items.keys
  set : ∀ j t, t ∈ c'.set j ↔ t ∈ c.set j ∨ (∃ rule ∈ rules, j = ⟨rule.id, 0⟩) ∧ t ∈ lookaheads
  waiting : ∀ j, j ∈ c.pending.toList → j ∈ c'.pending.toList
  fresh : ∀ j, j ∈ c'.pending.toList → j ∈ c.pending.toList ∨ ∃ rule ∈ rules, j = ⟨rule.id, 0⟩
  grown : ∀ j, j ∈ c'.pending.toList ∨ c'.items.get? j = c.items.get? j
  room : c'.pending.toList.length + roomAt c'.items slots ≤
    c.pending.toList.length + roomAt c.items slots

theorem demanded_foldl (place : ∀ rule ∈ rules, (⟨rule.id, 0⟩ : Item) ∈ slots) :
    Demanded slots lookaheads rules c (rules.foldl (demand lookaheads) c) := by
  induction rules generalizing c with
  | nil => constructor <;> simp
  | cons rule rest ih =>
    obtain ⟨here, others⟩ := List.forall_mem_cons.1 place
    have later := ih (c := demand lookaheads c rule) others
    rw [List.foldl_cons]
    constructor
    case keys =>
      intro j
      rw [later.keys, mem_keys_demand, List.exists_mem_cons_iff]
      exact or_left_comm.trans or_assoc.symm
    case set =>
      intro j t
      simp only [later.set, mem_set_demand, List.exists_mem_cons_iff, or_and_right, or_assoc]
    case waiting => exact fun j member => later.waiting j (mem_pending_demand.2 (.inl member))
    case fresh =>
      intro j member
      rw [List.exists_mem_cons_iff]
      rcases later.fresh j member with member | there
      · rcases mem_pending_demand.1 member with member | ⟨same, -⟩
        · exact .inl member
        · exact .inr (.inl same)
      · exact .inr (.inr there)
    case grown =>
      intro j
      rcases later.grown j with member | same
      · exact .inl member
      · rw [same]
        by_cases first : j = ⟨rule.id, 0⟩
        · by_cases changed : (demand lookaheads c rule).items.get? j = c.items.get? j
          · exact .inr changed
          · exact .inl (later.waiting j (mem_pending_demand.2 (.inr ⟨first, changed⟩)))
        · exact .inr (get?_demand_of_ne first)
    case room => exact Nat.le_trans later.room (room_demand here)

def Settled (g : Grammar) (c : Closing) (i : Item) : Prop :=
  ∀ rule ∈ g.rules.values, i.nextSymbol g = some (.nonterminal rule.left) →
    (⟨rule.id, 0⟩ : Item) ∈ c.items.keys ∧
      ∀ t, g.First (i.behind g) t ∨ g.Nullable (i.behind g) ∧ t ∈ c.set i →
        t ∈ c.set ⟨rule.id, 0⟩

structure Valid (g : Grammar) (kernel : ItemSet) (c : Closing) : Prop where
  core : ∀ i ∈ c.items.keys, CloseCore g kernel.lookaheadSet i
  lookahead : ∀ i, ∀ t ∈ c.set i, CloseLookahead g kernel.lookaheadSet i t
  keys : ∀ i ∈ kernel.keys, i ∈ c.items.keys
  sets : ∀ i t, t ∈ (kernel.get? i).getD ∅ → t ∈ c.set i
  waiting : ∀ i ∈ c.pending.toList, i ∈ c.items.keys
  settled : ∀ i ∈ c.items.keys, i ∈ c.pending.toList ∨ Settled g c i

def places (g : Grammar) (kernel : ItemSet) : List Item :=
  kernel.keys ++ g.rules.values.map fun rule => ⟨rule.id, 0⟩

/-- Steps are bounded by the items that wait and the lookaheads that can still be added. -/
def measure (g : Grammar) (kernel : ItemSet) (c : Closing) : Nat :=
  c.pending.toList.length + roomAt c.items (places g kernel)

/-- An item demands the starts of the rules of the nonterminal behind its marker. -/
theorem expand_demanded (linked : g.Linked) (kernel : ItemSet) (c : Closing) (i : Item) :
    ∃ rules lookaheads,
    Demanded (places g kernel) lookaheads rules c (expand g (.compute g) c i) ∧
      (∀ rule, rule ∈ rules ↔
        rule ∈ g.rules.values ∧ i.nextSymbol g = some (.nonterminal rule.left)) ∧
      ∀ rule ∈ rules, ∀ t, t ∈ lookaheads ↔
        g.First (i.behind g) t ∨ g.Nullable (i.behind g) ∧ t ∈ c.set i := by
  unfold expand
  split
  · next rule n known next =>
    refine ⟨_, _, demanded_foldl ?_, ?_, ?_⟩
    · intro rule' member
      have declared : rule' ∈ g.rules.values := (List.mem_filter.1 member).1
      exact List.mem_append_right _ (List.mem_map.2 ⟨rule', declared, rfl⟩)
    · intro rule'
      simp [rulesOf, next, eq_comm]
    · intro _ _ t
      have behind : i.behind g = rule.right.toList.drop (i.marker + 1) := by
        rw [Item.behind, known]
        rfl
      rw [FirstSets.ofSequenceFrom_eq, ← behind, FirstSets.mem_ofSequence linked, set]
  · next other =>
    refine ⟨[], ∅, demanded_foldl (by simp), fun rule => ?_, by simp⟩
    refine ⟨fun member => (List.not_mem_nil member).elim, ?_⟩
    rintro ⟨-, next⟩
    obtain ⟨rule', known, -⟩ := Option.bind_eq_some_iff.1 next
    exact (other rule' rule.left known next).elim

/-- One step looks at the item that has waited longest. -/
theorem step_valid (linked : g.Linked) (h : Valid g kernel c) (ongoing : more c = true) :
    Valid g kernel (step g (.compute g) c) ∧
      measure g kernel (step g (.compute g) c) < measure g kernel c := by
  obtain ⟨i, pending, popped, split⟩ := WorkList.exists_pop ongoing
  rw [step, popped]
  have present : i ∈ c.items.keys := h.waiting i (by simp [split])
  obtain ⟨rules, lookaheads, done, mem_rules, mem_lookaheads⟩ :=
    expand_demanded linked kernel { c with pending } i
  dsimp only
  generalize expand _ _ _ _ = c' at done ⊢
  have keys (j : Item) (member : j ∈ c.items.keys) : j ∈ c'.items.keys :=
    (done.keys j).2 (.inr member)
  have sets (j : Item) (t : TerminalId) (member : t ∈ c.set j) : t ∈ c'.set j :=
    (done.set j t).2 (.inl member)
  have room := done.room
  refine ⟨⟨?core, ?lookahead, fun j member => keys j (h.keys j member),
    fun j t member => sets j t (h.sets j t member), ?waiting, ?settled⟩, ?_⟩
  case core =>
    intro j member
    rcases (done.keys j).1 member with ⟨rule, demanded, rfl⟩ | old
    · obtain ⟨inRules, next⟩ := (mem_rules rule).1 demanded
      exact .expand (h.core i present) inRules next
    · exact h.core j old
  case lookahead =>
    intro j t member
    rcases (done.set j t).1 member with old | ⟨⟨rule, demanded, rfl⟩, inLookaheads⟩
    · exact h.lookahead j t old
    · obtain ⟨inRules, next⟩ := (mem_rules rule).1 demanded
      rcases (mem_lookaheads rule demanded t).1 inLookaheads with first | ⟨empty, inSet⟩
      · exact .first (h.core i present) inRules next first
      · exact .follow (h.lookahead i t inSet) inRules next empty
  case waiting =>
    intro j member
    rcases done.fresh j member with old | demanded
    · exact keys j (h.waiting j (by rw [split]; exact List.mem_cons_of_mem _ old))
    · exact (done.keys j).2 (.inl demanded)
  case settled =>
    intro j member
    rcases done.grown j with waits | same
    · exact .inl waits
    -- An item whose entry is as before has been expanded now or long ago.
    have set_eq : c'.set j = c.set j := congrArg (Option.getD · ∅) same
    have old : j ∈ c.items.keys := by
      rw [← OrderedMap.isSome_get?_iff] at member ⊢
      rwa [← same]
    by_cases current : j = i
    · subst current
      refine .inr fun rule inRules next => ?_
      have demanded := (mem_rules rule).2 ⟨inRules, next⟩
      refine ⟨(done.keys _).2 (.inl ⟨rule, demanded, rfl⟩), fun t asked => ?_⟩
      rw [set_eq] at asked
      have passed := (mem_lookaheads rule demanded t).2 asked
      exact (done.set _ t).2 (.inr ⟨⟨rule, demanded, rfl⟩, passed⟩)
    · rcases h.settled j old with waits | settled
      · rw [split] at waits
        exact .inl (done.waiting j ((List.mem_cons.1 waits).resolve_left current))
      · refine .inr fun rule inRules next => ?_
        obtain ⟨there, passed⟩ := settled rule inRules next
        exact ⟨keys _ there, fun t asked => sets _ t (passed t (set_eq ▸ asked))⟩
  · rw [measure, measure, split, List.length_cons]
    dsimp only at room
    omega

theorem initial_valid (g : Grammar) (kernel : ItemSet) :
    Valid g kernel ⟨kernel, .ofList kernel.keys⟩ where
  core _ member := .kernel member
  lookahead _ _ member := .kernel member
  keys _ member := member
  sets _ _ member := member
  waiting _ member := WorkList.mem_ofList.1 member
  settled _ member := .inl (WorkList.mem_ofList.2 member)

theorem measure_initial : measure g kernel ⟨kernel, .ofList kernel.keys⟩ ≤
    (kernel.size + g.rules.size) * (UInt16.size + 1) := by
  have waiting := WorkList.length_ofList_le kernel.keys
  have old : roomAt kernel kernel.keys ≤ kernel.keys.length * UInt16.size :=
    roomAt_le_of_present fun _ member => member
  have new := roomAt_le kernel (g.rules.values.map fun rule => (⟨rule.id, 0⟩ : Item))
  have split : roomAt kernel (places g kernel) =
      roomAt kernel kernel.keys + roomAt kernel (g.rules.values.map fun rule => ⟨rule.id, 0⟩) := by
    simp [roomAt, places]
  have rules : g.rules.size = g.rules.values.length := by
    simp [OrderedMap.size, OrderedMap.values]
  rw [List.length_map] at new
  rw [measure, split, ← kernel.length_keys, rules, Nat.add_mul, Nat.mul_add kernel.keys.length]
  dsimp only
  omega

/-- A set in which nothing waits is closed. -/
theorem Valid.exact (h : Valid g kernel c) (idle : c.pending.toList = []) :
    c.items.lookaheadSet = kernel.lookaheadSet.close g := by
  have settled (i : Item) (member : i ∈ c.items.keys) : Settled g c i :=
    (h.settled i member).resolve_left (by simp [idle])
  have core (i : Item) (member : CloseCore g kernel.lookaheadSet i) : i ∈ c.items.keys := by
    induction member with
    | kernel inKernel => exact h.keys _ inKernel
    | expand _ inRules next ih => exact (settled _ ih _ inRules next).1
  have lookahead (i : Item) (t : TerminalId) (member : CloseLookahead g kernel.lookaheadSet i t) :
      t ∈ c.set i := by
    induction member with
    | kernel inKernel => exact h.sets _ _ inKernel
    | first inCore inRules next first =>
      exact (settled _ (core _ inCore) _ inRules next).2 _ (.inl first)
    | follow passed inRules next empty ih =>
      have present := core _ (kernel.supported.close _ _ passed)
      exact (settled _ present _ inRules next).2 _ (.inr ⟨empty, ih⟩)
  refine LookaheadSet.ext ?_ ?_
  · funext i
    exact propext ⟨h.core i, core i⟩
  · funext i t
    exact propext ⟨h.lookahead i t, lookahead i t⟩

end Closing

/-- The closure of a kernel holds the items and the lookaheads of its LR(1) closure. -/
theorem lookaheadSet_closure {g : Grammar} (linked : g.Linked) (kernel : ItemSet) :
    (closure g (.compute g) kernel).lookaheadSet = kernel.lookaheadSet.close g := by
  have start := Closing.initial_valid g kernel
  obtain ⟨valid, done⟩ := iterate_done (P := Closing.Valid g kernel) (Closing.measure g kernel)
    (fun c h ongoing => Closing.step_valid linked h ongoing) start Closing.measure_initial
  refine valid.exact (WorkList.isEmpty_iff.1 ?_)
  simpa [Closing.more] using done

end Lalr
