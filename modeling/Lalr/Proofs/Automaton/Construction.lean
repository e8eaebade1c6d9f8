import Lalr.Proofs.Automaton.Successors
import Lalr.SortedSet
import Mathlib.Data.List.Perm.Subperm

/-! The loop that constructs the automaton. A state that does not wait any more has edges to states
that cover what its items advance to. A state waits again only after its kernel has gained a
lookahead, so the loop ends. -/
namespace Lalr

open Grammar LookaheadSet

variable {g : Grammar} {kernel old : ItemSet} {i j k : Nat} {M : LookaheadSet}

def ItemSet.absorb (old kernel : ItemSet) : ItemSet :=
  kernel.toList.foldl (fun items (k, lookaheads) => items.addLookaheads k lookaheads) old

namespace Grammar

def Contains (g : Grammar) (M : LookaheadSet) : Prop := ∀ a, M.core a → a ∈ g.items

variable {a : Item} {X : Symbol}

theorem mem_items_iff : a ∈ g.items ↔
    ∃ rule ∈ g.rules.values, rule.id = a.rule ∧ a.marker ≤ rule.right.size := by
  simp only [items, List.mem_flatMap, List.mem_map, List.mem_range, Nat.lt_succ_iff]
  refine exists_congr fun rule => and_congr_right fun _ => ?_
  constructor
  · rintro ⟨marker, le, rfl⟩
    exact ⟨rfl, le⟩
  · rintro ⟨same, le⟩
    exact ⟨a.marker, le, by rw [same]⟩

theorem Contains.initial (linked : g.Linked) (accept : g.acceptRule.isSome) :
    g.Contains .initial := by
  rintro a rfl
  obtain ⟨rule, known⟩ := Option.isSome_iff_exists.1 accept
  exact mem_items_iff.2 ⟨rule, mem_rules known, linked.rule_id _ _ known, Nat.zero_le _⟩

/-- A marker in front of a symbol can be moved, and one that runs over starts again. -/
theorem Contains.advance (linked : g.Linked) (M : LookaheadSet) (X : Symbol) :
    g.Contains (M.advance g X) := by
  rintro - ⟨a, -, next, rfl⟩
  obtain ⟨rule, known, marked⟩ := Option.bind_eq_some_iff.1 next
  obtain ⟨inside, -⟩ := Array.getElem?_eq_some_iff.1 marked
  exact mem_items_iff.2 ⟨rule, mem_rules known, linked.rule_id _ _ known,
    Nat.le_trans a.marker_advance_le inside⟩

end Grammar

namespace ItemSet

theorem core_absorb {a : Item} : (old.absorb kernel).lookaheadSet.core a ↔
    old.lookaheadSet.core a ∨ kernel.lookaheadSet.core a := by
  simp only [absorb, core_foldl_addLookaheads, exists_mem_toList]

theorem lookahead_absorb {a : Item} {t : TerminalId} :
    (old.absorb kernel).lookaheadSet.lookahead a t ↔
      old.lookaheadSet.lookahead a t ∨ kernel.lookaheadSet.lookahead a t := by
  simp only [absorb, lookahead_foldl_addLookaheads, exists_mem_mem_toList]

theorem keys_absorb (same : old.keys = kernel.keys) : (old.absorb kernel).keys = old.keys := by
  have fold (entries : List (Item × TerminalSet)) (items : ItemSet)
      (present : ∀ e ∈ entries, e.1 ∈ items.keys) :
      (entries.foldl (fun items (k, l) => ItemSet.addLookaheads items k l) items).keys =
        items.keys := by
    induction entries generalizing items with
    | nil => rfl
    | cons e rest ih =>
      obtain ⟨here, others⟩ := List.forall_mem_cons.1 present
      have keys : (items.addLookaheads e.1 e.2).keys = items.keys := by
        simp only [addLookaheads, OrderedMap.keys_insert, if_pos here]
      exact (ih _ (keys ▸ others)).trans keys
  apply fold kernel.toList old
  intro e member
  rw [same]
  exact List.mem_map.2 ⟨e, member, rfl⟩

end ItemSet

namespace Construction

variable {c c' c'' : Construction} {edges edges' : OrderedMap Symbol Nat}

/-- The kernel of `k` has the items of `M` and at least its lookaheads. -/
def Covers (c : Construction) (k : Nat) (M : LookaheadSet) : Prop :=
  ∃ K, c.kernels[k]? = some K ∧ (∀ a, K.lookaheadSet.core a ↔ M.core a) ∧
    ∀ a t, M.lookahead a t → K.lookaheadSet.lookahead a t

/-- There is an edge for each symbol behind a marker, to a state that covers what the items with
that symbol advance to. -/
def Settled (g : Grammar) (c : Construction) (i : Nat) : Prop :=
  ∃ K E, c.kernels[i]? = some K ∧ c.edges[i]? = some E ∧
    (∀ X, X ∈ E.keys ↔ ∃ a, ((K.lookaheadSet.close g).advance g X).core a) ∧
    ∀ X k, E.get? X = some k → c.Covers k ((K.lookaheadSet.close g).advance g X)

/-- What holds at any time, also while successors are interned. -/
structure Sound (g : Grammar) (c : Construction) : Prop where
  edges : c.edges.size = c.kernels.size
  limit : c.kernels.size ≤ stateLimit
  first : ∃ K : ItemSet, c.kernels[0]? = some K ∧ K.keys = [.initial] ∧
    K.lookaheadSet.lookahead .initial .endOfInput
  numbers : ∀ cores i, c.numbers[cores]? = some i ↔
    ∃ K : ItemSet, c.kernels[i]? = some K ∧ K.keys = cores
  sorted : ∀ (i : Nat) (K : ItemSet), c.kernels[i]? = some K → K.keys.Pairwise (compare · · = .lt)
  contains : ∀ (i : Nat) (K : ItemSet), c.kernels[i]? = some K → g.Contains K.lookaheadSet
  waiting : ∀ i ∈ c.pending.toList, i < c.kernels.size

/-- States with the same items are the same. -/
theorem Sound.number_unique {K L : ItemSet} (h : Sound g c) (entry : c.kernels[i]? = some K)
    (entry' : c.kernels[j]? = some L) (same : ∀ a, a ∈ K.keys ↔ a ∈ L.keys) : i = j := by
  have keys := eq_of_pairwise_lt (h.sorted i K entry) (h.sorted j L entry') same
  have here := (h.numbers _ _).2 ⟨K, entry, keys⟩
  have there := (h.numbers _ _).2 ⟨L, entry', rfl⟩
  exact Option.some.inj (here.symm.trans there)

/-- Kernels only gain lookaheads, and states whose kernels gain some wait. -/
structure Grows (c c' : Construction) : Prop where
  kernel : ∀ (i : Nat) (K : ItemSet), c.kernels[i]? = some K →
    ∃ K' : ItemSet, c'.kernels[i]? = some K' ∧ K'.keys = K.keys ∧
    (∀ a t, K.lookaheadSet.lookahead a t → K'.lookaheadSet.lookahead a t) ∧
    (K' = K ∨ i ∈ c'.pending.toList)
  edges : ∀ (i : Nat) E, c.edges[i]? = some E → c'.edges[i]? = some E
  waiting : ∀ i ∈ c.pending.toList, i ∈ c'.pending.toList
  fresh : ∀ i, i < c'.kernels.size → i < c.kernels.size ∨ i ∈ c'.pending.toList

theorem Grows.refl (c : Construction) : Grows c c where
  kernel _ K entry := ⟨K, entry, rfl, fun _ _ => id, .inl rfl⟩
  edges _ _ entry := entry
  waiting _ member := member
  fresh _ small := .inl small

theorem Grows.trans (first : Grows c c') (second : Grows c' c'') : Grows c c'' where
  kernel i K entry := by
    obtain ⟨K', entry', keys, lookaheads, same⟩ := first.kernel i K entry
    obtain ⟨K'', entry'', keys', lookaheads', same'⟩ := second.kernel i K' entry'
    refine ⟨K'', entry'', keys'.trans keys, fun a t h => lookaheads' a t (lookaheads a t h), ?_⟩
    rcases same' with rfl | waits
    · exact same.imp_right (second.waiting i)
    · exact .inr waits
  edges i E entry := second.edges i E (first.edges i E entry)
  waiting i member := second.waiting i (first.waiting i member)
  fresh i small := by
    rcases second.fresh i small with small | waits
    · exact (first.fresh i small).imp_right (second.waiting i)
    · exact .inr waits

theorem Grows.covers (h : Grows c c') (covers : c.Covers k M) : c'.Covers k M := by
  obtain ⟨K, entry, cores, lookaheads⟩ := covers
  obtain ⟨K', entry', keys, gained, -⟩ := h.kernel k K entry
  refine ⟨K', entry', fun a => ?_, fun a t member => gained a t (lookaheads a t member)⟩
  rw [← cores a]
  change a ∈ K'.keys ↔ a ∈ K.keys
  rw [keys]

theorem Grows.settled (h : Grows c c') (settled : Settled g c i) :
    Settled g c' i ∨ i ∈ c'.pending.toList := by
  obtain ⟨K, E, entry, edges, keys, covers⟩ := settled
  obtain ⟨K', entry', -, -, same⟩ := h.kernel i K entry
  apply same.imp_left
  intro same
  exact ⟨K, E, same ▸ entry', h.edges i E edges, keys, fun X k edge => h.covers (covers X k edge)⟩

/-- A state that a kernel leads to has its items, and its lookaheads are added. -/
theorem merge_cases (kernel : ItemSet) (entry : c.kernels[i]? = some old) :
    (old.absorb kernel = old ∧ c.merge i kernel = c) ∨
    (old.absorb kernel ≠ old ∧ c.merge i kernel =
      { c with kernels := c.kernels.setIfInBounds i (old.absorb kernel)
               pending := c.pending.push i }) := by
  have present : c.kernels[i]?.getD ∅ = old := by rw [entry, Option.getD_some]
  unfold merge
  rw [present]
  by_cases same : old.absorb kernel = old
  · exact .inl ⟨same, if_pos same⟩
  · exact .inr ⟨same, if_neg same⟩

theorem getElem?_merge (kernel : ItemSet) (entry : c.kernels[i]? = some old) :
    (c.merge i kernel).kernels[k]? =
      if k = i then some (old.absorb kernel) else c.kernels[k]? := by
  rcases merge_cases kernel entry with ⟨same, eq⟩ | ⟨-, eq⟩
  · rw [eq, same]
    split
    · next here => rw [here, entry]
    · rfl
  · obtain ⟨small, -⟩ := Array.getElem?_eq_some_iff.1 entry
    rw [eq, Array.getElem?_setIfInBounds, if_pos small]
    simp only [eq_comm]

theorem size_merge (kernel : ItemSet) (entry : c.kernels[i]? = some old) :
    (c.merge i kernel).kernels.size = c.kernels.size := by
  rcases merge_cases kernel entry with ⟨-, eq⟩ | ⟨-, eq⟩
  · rw [eq]
  · simp only [eq, Array.size_setIfInBounds]

theorem edges_merge (kernel : ItemSet) (entry : c.kernels[i]? = some old) :
    (c.merge i kernel).edges = c.edges := by
  rcases merge_cases kernel entry with ⟨-, eq⟩ | ⟨-, eq⟩ <;> rw [eq]

theorem numbers_merge (kernel : ItemSet) (entry : c.kernels[i]? = some old) :
    (c.merge i kernel).numbers = c.numbers := by
  rcases merge_cases kernel entry with ⟨-, eq⟩ | ⟨-, eq⟩ <;> rw [eq]

theorem mem_pending_merge (kernel : ItemSet) (entry : c.kernels[i]? = some old) :
    k ∈ (c.merge i kernel).pending.toList ↔
      k ∈ c.pending.toList ∨ k = i ∧ old.absorb kernel ≠ old := by
  rcases merge_cases kernel entry with ⟨same, eq⟩ | ⟨grows, eq⟩
  · simp [eq, same]
  · rw [eq, WorkList.mem_push]
    simp [grows, or_comm]

theorem merge_grows (entry : c.kernels[i]? = some old) (same : old.keys = kernel.keys) :
    Grows c (c.merge i kernel) where
  kernel k K there := by
    rw [getElem?_merge kernel entry]
    by_cases here : k = i
    · subst here
      cases entry.symm.trans there
      refine ⟨_, if_pos rfl, ItemSet.keys_absorb same,
        fun a t member => ItemSet.lookahead_absorb.2 (.inl member), ?_⟩
      by_cases stays : old.absorb kernel = old
      · exact .inl stays
      · exact .inr ((mem_pending_merge kernel entry).2 (.inr ⟨rfl, stays⟩))
    · rw [if_neg here]
      exact ⟨K, there, rfl, fun _ _ => id, .inl rfl⟩
  edges k E there := edges_merge kernel entry ▸ there
  waiting k member := (mem_pending_merge kernel entry).2 (.inl member)
  fresh k small := .inl (size_merge kernel entry ▸ small)

theorem merge_sound (h : Sound g c) (entry : c.kernels[i]? = some old)
    (same : old.keys = kernel.keys) : Sound g (c.merge i kernel) := by
  have keys : (old.absorb kernel).keys = old.keys := ItemSet.keys_absorb same
  have cases {k : Nat} {K : ItemSet} (there : (c.merge i kernel).kernels[k]? = some K) :
      k = i ∧ K = old.absorb kernel ∨ c.kernels[k]? = some K := by
    rw [getElem?_merge kernel entry] at there
    split at there
    · next here => exact .inl ⟨here, (Option.some.inj there).symm⟩
    · exact .inr there
  constructor
  case edges => rw [edges_merge kernel entry, size_merge kernel entry, h.edges]
  case limit => rw [size_merge kernel entry]; exact h.limit
  case first =>
    obtain ⟨K, there, first, lookahead⟩ := h.first
    obtain ⟨K', there', keys', gained, -⟩ := (merge_grows entry same).kernel 0 K there
    exact ⟨K', there', keys'.trans first, gained _ _ lookahead⟩
  case numbers =>
    intro cores k
    rw [numbers_merge kernel entry, h.numbers]
    constructor
    · rintro ⟨K, there, rfl⟩
      obtain ⟨K', there', keys', -⟩ := (merge_grows entry same).kernel k K there
      exact ⟨K', there', keys'⟩
    · rintro ⟨K, there, rfl⟩
      rcases cases there with ⟨rfl, rfl⟩ | there
      · exact ⟨old, entry, keys.symm⟩
      · exact ⟨K, there, rfl⟩
  case sorted =>
    intro k K there
    rcases cases there with ⟨rfl, rfl⟩ | there
    · rw [keys]
      exact h.sorted k old entry
    · exact h.sorted k K there
  case contains =>
    intro k K there a member
    rcases cases there with ⟨rfl, rfl⟩ | there
    · refine h.contains k old entry a ?_
      change a ∈ old.keys
      rw [← keys]
      exact member
    · exact h.contains k K there a member
  case waiting =>
    intro k member
    rw [size_merge kernel entry]
    rcases (mem_pending_merge kernel entry).1 member with member | ⟨rfl, -⟩
    · exact h.waiting k member
    · exact (Array.getElem?_eq_some_iff.1 entry).1

def extend (c : Construction) (kernel : ItemSet) : Construction where
  kernels := c.kernels.push kernel
  edges := c.edges.push ∅
  numbers := c.numbers.insert kernel.keys c.kernels.size
  pending := c.pending.push c.kernels.size

theorem intern_cases (done : c.intern kernel = .ok (i, c')) :
    (c.numbers[kernel.keys]? = some i ∧ c' = c.merge i kernel) ∨
    (c.numbers[kernel.keys]? = none ∧ c.kernels.size < stateLimit ∧ i = c.kernels.size ∧
      c' = c.extend kernel) := by
  unfold intern at done
  split at done
  · next k known =>
    cases done
    exact .inl ⟨known, rfl⟩
  · next fresh =>
    dsimp only at done
    split at done
    · cases done
    · next small =>
      cases done
      exact .inr ⟨fresh, Nat.lt_of_not_le small, rfl, rfl⟩

theorem extend_grows : Grows c (c.extend kernel) where
  kernel k K there := by
    obtain ⟨small, -⟩ := Array.getElem?_eq_some_iff.1 there
    refine ⟨K, ?_, rfl, fun _ _ => id, .inl rfl⟩
    simp only [extend, Array.getElem?_push, if_neg (Nat.ne_of_lt small), there]
  edges k E there := by
    obtain ⟨small, -⟩ := Array.getElem?_eq_some_iff.1 there
    simp only [extend, Array.getElem?_push, if_neg (Nat.ne_of_lt small), there]
  waiting k member := WorkList.mem_push.2 (.inr member)
  fresh k small := by
    rw [extend, Array.size_push] at small
    rcases Nat.lt_or_eq_of_le (Nat.le_of_lt_succ small) with old | new
    · exact .inl old
    · exact .inr (WorkList.mem_push.2 (.inl new))

theorem extend_sound (h : Sound g c) (fresh : c.numbers[kernel.keys]? = none)
    (small : c.kernels.size < stateLimit) (sorted : kernel.keys.Pairwise (compare · · = .lt))
    (contains : g.Contains kernel.lookaheadSet) : Sound g (c.extend kernel) := by
  have cases {k : Nat} {K : ItemSet} (there : (c.extend kernel).kernels[k]? = some K) :
      k = c.kernels.size ∧ K = kernel ∨ c.kernels[k]? = some K := by
    rw [extend, Array.getElem?_push] at there
    split at there
    · next here => exact .inl ⟨here, (Option.some.inj there).symm⟩
    · exact .inr there
  constructor
  case edges => simp [extend, h.edges]
  case limit => simpa [extend] using Nat.succ_le_of_lt small
  case first =>
    obtain ⟨K, there, first, lookahead⟩ := h.first
    obtain ⟨K', there', keys', gained, -⟩ := extend_grows.kernel 0 K there
    exact ⟨K', there', keys'.trans first, gained _ _ lookahead⟩
  case numbers =>
    intro cores k
    simp only [extend, Std.TreeMap.getElem?_insert, Std.compare_eq_iff_eq, Array.getElem?_push]
    by_cases here : kernel.keys = cores
    · subst here
      rw [if_pos rfl, Option.some.injEq]
      constructor
      · rintro rfl
        exact ⟨kernel, if_pos rfl, rfl⟩
      · rintro ⟨K, there, same⟩
        split at there
        · next last => exact last.symm
        · have known := (h.numbers _ _).2 ⟨K, there, same⟩
          rw [fresh] at known
          cases known
    · rw [if_neg here, h.numbers]
      constructor
      · rintro ⟨K, there, same⟩
        obtain ⟨old, -⟩ := Array.getElem?_eq_some_iff.1 there
        exact ⟨K, by rw [if_neg (Nat.ne_of_lt old), there], same⟩
      · rintro ⟨K, there, same⟩
        split at there
        · exact absurd (Option.some.inj there ▸ same) here
        · exact ⟨K, there, same⟩
  case sorted =>
    intro k K there
    rcases cases there with ⟨-, rfl⟩ | there
    · exact sorted
    · exact h.sorted k K there
  case contains =>
    intro k K there
    rcases cases there with ⟨-, rfl⟩ | there
    · exact contains
    · exact h.contains k K there
  case waiting =>
    intro k member
    rw [extend, Array.size_push]
    rcases WorkList.mem_push.1 member with rfl | member
    · exact Nat.lt_succ_self _
    · exact Nat.lt_succ_of_lt (h.waiting k member)

/-- The state that a kernel is interned as covers it. -/
theorem intern_spec (h : Sound g c) (sorted : kernel.keys.Pairwise (compare · · = .lt))
    (contains : g.Contains kernel.lookaheadSet) (done : c.intern kernel = .ok (i, c')) :
    Sound g c' ∧ Grows c c' ∧ c'.Covers i kernel.lookaheadSet := by
  rcases intern_cases done with ⟨known, rfl⟩ | ⟨fresh, small, rfl, rfl⟩
  · obtain ⟨old, entry, same⟩ := (h.numbers _ _).1 known
    refine ⟨merge_sound h entry same, merge_grows entry same, old.absorb kernel,
      by rw [getElem?_merge kernel entry, if_pos rfl], fun a => ?_,
      fun a t member => ItemSet.lookahead_absorb.2 (.inr member)⟩
    rw [ItemSet.core_absorb]
    apply or_iff_right_of_imp
    intro member
    change a ∈ kernel.keys
    rw [← same]
    exact member
  · refine ⟨extend_sound h fresh small sorted contains, extend_grows, kernel, ?_, fun _ => .rfl,
      fun _ _ => id⟩
    rw [extend, Array.getElem?_push, if_pos rfl]

structure Interned (g : Grammar) (entries : List (Symbol × ItemSet))
    (edges edges' : OrderedMap Symbol Nat) (c c' : Construction) : Prop where
  sound : Sound g c'
  grows : Grows c c'
  keys : ∀ X, X ∈ edges'.keys ↔ X ∈ edges.keys ∨ X ∈ entries.map Prod.fst
  covers : ∀ X k, edges'.get? X = some k →
    edges.get? X = some k ∨ ∃ K, (X, K) ∈ entries ∧ c'.Covers k K.lookaheadSet

theorem internAll_interned {entries : List (Symbol × ItemSet)} (h : Sound g c)
    (contains : ∀ e ∈ entries, g.Contains (ItemSet.lookaheadSet e.2))
    (done : c.internAll edges entries = .ok (edges', c')) :
    Interned g entries edges edges' c c' := by
  induction entries generalizing c edges with
  | nil =>
    cases done
    exact ⟨h, .refl _, fun X => by simp, fun X k => .inl⟩
  | cons e rest ih =>
    obtain ⟨X, kernel⟩ := e
    obtain ⟨here, others⟩ := List.forall_mem_cons.1 contains
    unfold internAll at done
    split at done
    · cases done
    · next i c₁ interned =>
      have same := ItemSet.lookaheadSet_sortKeys kernel
      obtain ⟨sound, grows, covers⟩ := intern_spec h kernel.pairwise_keys_sortKeys
        (by rw [same]; exact here) interned
      have later := ih sound others done
      refine ⟨later.sound, grows.trans later.grows, fun Y => ?_, fun Y k edge => ?_⟩
      · rw [later.keys, OrderedMap.mem_keys_insert, List.map_cons, List.mem_cons]
        exact or_assoc.trans or_left_comm
      · rcases later.covers Y k edge with edge | ⟨K, member, covered⟩
        · rw [OrderedMap.get?_insert] at edge
          split at edge
          · next this =>
            cases edge
            subst this
            refine .inr ⟨kernel, List.mem_cons_self, later.grows.covers ?_⟩
            rwa [same] at covers
          · exact .inl edge
        · exact .inr ⟨K, List.mem_cons_of_mem _ member, covered⟩

def room (c : Construction) : Nat :=
  (c.kernels.toList.map fun K : ItemSet => roomAt K K.keys).sum

/-- Visits are bounded by the states that wait or are still to be found and the lookaheads that
kernels can still gain. -/
def measure (g : Grammar) (c : Construction) : Nat :=
  c.pending.toList.length +
    (stateLimit - c.kernels.size) * (1 + g.items.length * UInt16.size) + c.room

theorem room_kernel_le (contains : g.Contains kernel.lookaheadSet) :
    roomAt kernel kernel.keys ≤ g.items.length * UInt16.size := by
  have length := (kernel.keys_nodup.subperm fun a member => contains a member).length_le
  have room : roomAt kernel kernel.keys ≤ kernel.keys.length * UInt16.size :=
    roomAt_le_of_present fun _ member => member
  exact Nat.le_trans room (Nat.mul_le_mul_right _ length)

theorem measure_merge (entry : c.kernels[i]? = some old) (same : old.keys = kernel.keys) :
    measure g (c.merge i kernel) ≤ measure g c := by
  rcases merge_cases kernel entry with ⟨-, eq⟩ | ⟨grows, eq⟩
  · exact Nat.le_of_eq (congrArg _ eq)
  · have pushed := WorkList.length_push_le c.pending i
    have less : roomAt (old.absorb kernel) (old.absorb kernel).keys < roomAt old old.keys :=
      roomAt_lt_of_grows (ItemSet.keys_absorb same)
        (fun a t member => ItemSet.lookahead_absorb.2 (.inl member)) grows
    have rooms : room (c.merge i kernel) < room c := by
      rw [eq, room, room, Array.toList_setIfInBounds]
      have sums := sum_map_set (f := fun K : ItemSet => roomAt K K.keys) (b := old.absorb kernel)
        (show c.kernels.toList[i]? = some old by rw [Array.getElem?_toList, entry])
      omega
    rw [measure, measure, size_merge kernel entry]
    rw [eq] at rooms ⊢
    dsimp only
    omega

theorem measure_extend (small : c.kernels.size < stateLimit)
    (contains : g.Contains kernel.lookaheadSet) :
    measure g (c.extend kernel) ≤ measure g c := by
  have pushed := WorkList.length_push_le c.pending c.kernels.size
  have rooms : room (c.extend kernel) = room c + roomAt kernel kernel.keys := by
    simp [room, extend]
  have le := room_kernel_le contains
  obtain ⟨n, left⟩ : ∃ n, stateLimit - c.kernels.size = n + 1 :=
    Nat.exists_eq_add_one.2 (Nat.sub_pos_of_lt small)
  have left' : stateLimit - (c.kernels.size + 1) = n := by omega
  rw [measure, measure, rooms, left, Nat.add_mul, Nat.one_mul]
  dsimp only [extend]
  rw [Array.size_push, left']
  omega

/-- A relation that merging and extending keep holds when several kernels have been interned. -/
theorem internAll_relates {P : LookaheadSet → Prop} {R : Construction → Construction → Prop}
    (refl : ∀ c, R c c) (trans : ∀ c c' c'', R c c' → R c' c'' → R c c'')
    (allowed : ∀ M, P M → g.Contains M)
    (merge : ∀ (c : Construction) (i : Nat) (old kernel : ItemSet), P kernel.lookaheadSet →
      c.kernels[i]? = some old → old.keys = kernel.keys → R c (c.merge i kernel))
    (extend : ∀ (c : Construction) (kernel : ItemSet), P kernel.lookaheadSet →
      c.kernels.size < stateLimit → R c (c.extend kernel))
    {entries : List (Symbol × ItemSet)} (h : Sound g c)
    (holds : ∀ e ∈ entries, P (ItemSet.lookaheadSet e.2))
    (done : c.internAll edges entries = .ok (edges', c')) : R c c' := by
  induction entries generalizing c edges with
  | nil =>
    cases done
    exact refl _
  | cons e rest ih =>
    obtain ⟨X, kernel⟩ := e
    obtain ⟨here, others⟩ := List.forall_mem_cons.1 holds
    rw [← ItemSet.lookaheadSet_sortKeys] at here
    unfold internAll at done
    split at done
    · cases done
    · next i c₁ interned =>
      obtain ⟨sound, -, -⟩ :=
        intern_spec h kernel.pairwise_keys_sortKeys (allowed _ here) interned
      refine trans _ _ _ ?_ (ih sound others done)
      rcases intern_cases interned with ⟨known, rfl⟩ | ⟨-, small, -, rfl⟩
      · obtain ⟨old, entry, same⟩ := (h.numbers _ _).1 known
        exact merge _ _ _ _ here entry same
      · exact extend _ _ here small

theorem measure_internAll {entries : List (Symbol × ItemSet)} (h : Sound g c)
    (contains : ∀ e ∈ entries, g.Contains (ItemSet.lookaheadSet e.2))
    (done : c.internAll edges entries = .ok (edges', c')) : measure g c' ≤ measure g c :=
  internAll_relates (P := g.Contains) (R := fun c c' => measure g c' ≤ measure g c)
    (fun _ => Nat.le_refl _) (fun _ _ _ first second => Nat.le_trans second first)
    (fun _ contains => contains) (fun _ _ _ _ _ entry same => measure_merge entry same)
    (fun _ _ contains small => measure_extend small contains) h contains done

/-- What holds between visits: a state waits or is settled. -/
structure Valid (g : Grammar) (c : Construction) : Prop where
  sound : Sound g c
  settled : ∀ i < c.kernels.size, i ∈ c.pending.toList ∨ Settled g c i

theorem measure_pop {pending : WorkList Nat} (split : c.pending.toList = i :: pending.toList) :
    measure g { c with pending } < measure g c := by
  rw [measure, measure, split, List.length_cons]
  exact Nat.add_lt_add_right (Nat.add_lt_add_right (Nat.lt_succ_self _) _) _

/-- A visit takes the state that has waited longest off the list, so that it can be put there
again, and interns what its items advance to. -/
theorem exists_visit (linked : g.Linked) (h : Valid g c) (ongoing : more c = true) :
    ∃ (i : Nat) (pending : WorkList Nat) (K : ItemSet),
      c.pending.pop = some (i, pending) ∧ c.kernels[i]? = some K ∧
      Sound g { c with pending } ∧
      (∀ e ∈ (successors g (closure g (.compute g) K)).toList,
        ItemSet.lookaheadSet e.2 = (K.lookaheadSet.close g).advance g e.1 ∧
        g.Contains (ItemSet.lookaheadSet e.2)) ∧
      step g (.compute g) c =
        ({ c with pending }.internAll ∅ (successors g (closure g (.compute g) K)).toList).map
          fun r : OrderedMap Symbol Nat × Construction =>
            { r.2 with edges := r.2.edges.setIfInBounds i r.1 } := by
  obtain ⟨i, pending, popped, split⟩ := WorkList.exists_pop ongoing
  have small : i < c.kernels.size := h.sound.waiting i (by simp [split])
  obtain ⟨K, entry⟩ : ∃ K, c.kernels[i]? = some K := ⟨_, Array.getElem?_eq_getElem small⟩
  refine ⟨i, pending, K, popped, entry, ?_, fun e member => ?_, ?_⟩
  · exact { h.sound with
      waiting := fun k member => h.sound.waiting k (by rw [split]; exact .tail _ member) }
  · have advanced : ItemSet.lookaheadSet e.2 = (K.lookaheadSet.close g).advance g e.1 := by
      rw [lookaheadSet_successors (OrderedMap.mem_toList_iff.1 member), lookaheadSet_closure linked]
    exact ⟨advanced, advanced ▸ .advance linked _ _⟩
  · rw [step, popped]
    dsimp only
    rw [entry, Option.getD_some]
    cases { c with pending }.internAll ∅ (successors g (closure g (.compute g) K)).toList <;> rfl

/-- One visit interns the successors of the state that has waited longest. -/
theorem step_valid (linked : g.Linked) (h : Valid g c) (ongoing : more c = true)
    (done : step g (.compute g) c = .ok c') : Valid g c' ∧ measure g c' < measure g c := by
  obtain ⟨i, pending, K, popped, entry, sound, successor, visit⟩ := exists_visit linked h ongoing
  have split := WorkList.pop_eq_some popped
  obtain ⟨⟨edges, c₁⟩, interned, rfl⟩ := map_eq_ok (visit.symm.trans done)
  have all := internAll_interned sound (fun e member => (successor e member).2) interned
  have less :=
    measure_internAll sound (fun e member => (successor e member).2) interned
  have size : c₁.edges.size = c₁.kernels.size := all.sound.edges
  refine ⟨⟨{ all.sound with edges := ?_ }, fun k inside => ?_⟩, ?_⟩
  · simp only [Array.size_setIfInBounds, size]
  · by_cases current : k = i
    · subst current
      obtain ⟨K', entry', -, -, same⟩ := all.grows.kernel k K entry
      rcases same with rfl | waits
      · refine .inr ⟨K', edges, entry', ?_, fun X => ?_, fun X n edge => ?_⟩
        · rw [Array.getElem?_setIfInBounds, if_pos rfl, if_pos (size ▸ inside)]
        · rw [all.keys, ← lookaheadSet_closure linked, ← mem_keys_successors]
          exact or_iff_right List.not_mem_nil
        · rcases all.covers X n edge with none | ⟨M, member, covered⟩
          · cases none
          · exact (successor (X, M) member).1 ▸ covered
      · exact .inl waits
    · -- Other states wait as before, have grown, are new or stay settled.
      have stays (settled : Settled g c₁ k) :
          Settled g { c₁ with edges := c₁.edges.setIfInBounds i edges } k := by
        obtain ⟨L, E, there, edge, others⟩ := settled
        refine ⟨L, E, there, ?_, others⟩
        simp only [Array.getElem?_setIfInBounds, if_neg (Ne.symm current), edge]
      rcases all.grows.fresh k inside with old | waits
      · rcases h.settled k old with waits | settled
        · rw [split] at waits
          exact .inl (all.grows.waiting k ((List.mem_cons.1 waits).resolve_left current))
        · exact (all.grows.settled settled).symm.imp_right stays
      · exact .inl waits
  · exact Nat.lt_of_le_of_lt less (measure_pop split)

def firstKernel : ItemSet := OrderedMap.empty.insert .initial (.singleton .endOfInput)

theorem lookaheadSet_firstKernel : firstKernel.lookaheadSet = .initial := by
  refine LookaheadSet.ext ?_ ?_
  · funext a
    exact propext (OrderedMap.mem_keys_insert.trans (or_iff_left List.not_mem_nil))
  · funext a t
    simp only [ItemSet.lookaheadSet, firstKernel, OrderedMap.get?_insert, LookaheadSet.initial]
    by_cases same : a = .initial
    · simp [same]
    · have none : (OrderedMap.empty : ItemSet).get? a = none := rfl
      simp [same, none]

theorem initial_valid (linked : g.Linked) (accept : g.acceptRule.isSome) :
    Valid g .initial := by
  have only {i : Nat} {K : ItemSet} (entry : initial.kernels[i]? = some K) :
      i = 0 ∧ K = firstKernel := by
    obtain ⟨small, rfl⟩ := Array.getElem?_eq_some_iff.1 entry
    obtain rfl : i = 0 := Nat.lt_one_iff.1 small
    exact ⟨rfl, rfl⟩
  constructor
  case sound =>
    constructor
    case edges => rfl
    case limit => decide
    case first => exact ⟨firstKernel, rfl, rfl, lookaheadSet_firstKernel ▸ ⟨rfl, rfl⟩⟩
    case numbers =>
      intro cores i
      simp only [initial, Std.TreeMap.getElem?_insert, Std.compare_eq_iff_eq]
      constructor
      · intro known
        split at known
        · next same =>
          cases known
          exact ⟨firstKernel, rfl, same⟩
        · simp at known
      · rintro ⟨K, entry, rfl⟩
        obtain ⟨rfl, rfl⟩ := only entry
        exact if_pos rfl
    case sorted =>
      intro i K entry
      obtain ⟨-, rfl⟩ := only entry
      exact List.pairwise_singleton _ _
    case contains =>
      intro i K entry
      obtain ⟨-, rfl⟩ := only entry
      rw [lookaheadSet_firstKernel]
      exact .initial linked accept
    case waiting =>
      intro i member
      rcases WorkList.mem_push.1 member with rfl | none
      · exact Nat.zero_lt_one
      · cases none
  case settled =>
    intro i small
    obtain rfl : i = 0 := Nat.lt_one_iff.1 small
    exact .inl (WorkList.mem_push.2 (.inl rfl))

theorem measure_initial (linked : g.Linked) (accept : g.acceptRule.isSome) :
    measure g .initial ≤ visitLimit g := by
  have le : roomAt firstKernel firstKernel.keys ≤ g.items.length * UInt16.size :=
    room_kernel_le (lookaheadSet_firstKernel ▸ .initial linked accept)
  have kernels : initial.kernels.toList = [firstKernel] := rfl
  have pending : initial.pending.toList.length = 1 := rfl
  have size : initial.kernels.size = 1 := rfl
  obtain ⟨k, limit⟩ : ∃ k, stateLimit = k + 1 := ⟨65535, rfl⟩
  rw [measure, visitLimit, room, kernels, List.map_singleton, List.sum_singleton, pending, size,
    Nat.mul_assoc, limit, Nat.add_sub_cancel, Nat.mul_add, Nat.add_mul]
  omega

theorem more_eq_false : c.more = false ↔ c.pending.toList = [] := by
  rw [more, Bool.not_eq_false', WorkList.isEmpty_iff]

theorem measure_pos (ongoing : c.more = true) : 0 < measure g c := by
  have waiting : c.pending.toList ≠ [] := by
    intro idle
    cases ongoing.symm.trans (more_eq_false.2 idle)
  rw [measure, Nat.add_assoc]
  exact Nat.add_pos_left (List.length_pos_iff.2 waiting) _

/-- The visits allowed are enough. -/
theorem loop_valid (linked : g.Linked) (accept : g.acceptRule.isSome)
    (loop : iterateExcept more (step g (.compute g)) (visitLimit g) .initial = .ok c) :
    Valid g c ∧ c.pending.toList = [] := by
  have done := more_iterateExcept_eq_false (measure g)
    (fun s t h ongoing done => step_valid linked h ongoing done)
    (fun s _ ongoing => measure_pos ongoing) _ _ (initial_valid linked accept) (measure_initial linked accept) loop
  have valid := iterateExcept_invariant (P := Valid g)
    (fun s t h ongoing done => (step_valid linked h ongoing done).1) _ _ (initial_valid linked accept) loop
  exact ⟨valid, more_eq_false.1 done⟩

end Construction

/-- With an accepting rule the automaton is what the loop ends with. -/
theorem Automaton.construct_eq (accept : g.acceptRule.isSome) :
    Automaton.construct g (.compute g) =
      (iterateExcept Construction.more (Construction.step g (.compute g))
        (Construction.visitLimit g) .initial).map fun c : Construction =>
          ⟨c.kernels.zipWith (Construction.finish g (.compute g)) c.edges⟩ := by
  obtain ⟨rule, accepts⟩ := Option.isSome_iff_exists.1 accept
  rw [Automaton.construct]
  -- The loop is closed off first, so that nothing tries to run it.
  generalize iterateExcept Construction.more (Construction.step g (.compute g))
    (Construction.visitLimit g) .initial = loop
  rw [accepts]
  cases loop <;> rfl

end Lalr
