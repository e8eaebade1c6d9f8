import Lalr.Proofs.Automaton.Exact
import Mathlib.Data.Set.Card

/-! The states are the kernels of the LR(0) collection, which is stated without lookaheads and
without numbers. Every kernel has one state, unless there are more kernels than numbers. -/
namespace Lalr

open Grammar LookaheadSet

def LookaheadSet.bare (K : Set Item) : LookaheadSet := ⟨(· ∈ K), fun _ _ => False⟩

namespace Grammar

/-- The items with `X` behind the marker in the LR(0) closure of a kernel, moved past it. -/
def successor (g : Grammar) (K : Set Item) (X : Symbol) : Set Item :=
  {j | ∃ i, CloseCore g (.bare K) i ∧ i.nextSymbol g = some X ∧ j = i.moved}

/-- The kernels that can be reached from `[$start := . S]`. -/
inductive Kernel (g : Grammar) : Set Item → Prop where
  | initial : Kernel g {.initial}
  | next : Kernel g K → (g.successor K X).Nonempty → Kernel g (g.successor K X)

variable {g : Grammar} {K : Set Item}

theorem successor_canonicalKernel (g : Grammar) (γ : List Symbol) (X : Symbol) :
    g.successor {i | (g.canonicalKernel γ).core i} X =
      {i | (g.canonicalKernel (γ ++ [X])).core i} := by
  have leads : g.LeadsTo γ (.bare {i | (g.canonicalKernel γ).core i}) := fun _ => .rfl
  ext j
  exact leads.goto X j

/-- The kernels have the items of the canonical kernels that are not empty. -/
theorem kernel_iff : g.Kernel K ↔
    K.Nonempty ∧ ∃ γ, K = {i | (g.canonicalKernel γ).core i} := by
  constructor
  · intro kernel
    induction kernel with
    | initial => exact ⟨⟨_, rfl⟩, [], rfl⟩
    | next _ inhabited ih =>
      obtain ⟨-, γ, rfl⟩ := ih
      exact ⟨inhabited, γ ++ [_], successor_canonicalKernel g γ _⟩
  · rintro ⟨inhabited, γ, rfl⟩
    induction γ using List.reverseRecOn with
    | nil => exact .initial
    | append_singleton γ X ih =>
      rw [← successor_canonicalKernel] at inhabited ⊢
      refine .next (ih ?_) inhabited
      obtain ⟨j, i, closed, -⟩ := inhabited
      exact closed.exists_kernel

end Grammar

namespace Construction

variable {g : Grammar} {c : Construction} {kernel : ItemSet} {edges : OrderedMap Symbol Nat}
  {e : AutomatonError}

def collection (c : Construction) : Set (Set Item) :=
  {S | ∃ (i : Nat) (K : ItemSet), c.kernels[i]? = some K ∧ S = {b | b ∈ K.keys}}

/-- Every state has a kernel of its own. -/
theorem encard_collection (h : Sound g c) : c.collection.encard = c.kernels.size := by
  have image : c.collection =
      (fun i => {b | b ∈ (c.kernels[i]?.getD ∅).keys}) '' {i | i < c.kernels.size} := by
    ext S
    constructor
    · rintro ⟨i, K, entry, rfl⟩
      exact ⟨i, (Array.getElem?_eq_some_iff.1 entry).1, by simp [entry]⟩
    · rintro ⟨i, small, rfl⟩
      have entry : c.kernels[i]? = some c.kernels[i] := Array.getElem?_eq_getElem small
      exact ⟨i, c.kernels[i], entry, by simp [entry]⟩
  rw [image, Set.InjOn.encard_image, Set.Nat.encard_range]
  intro i small j small' same
  have entry : c.kernels[i]? = some c.kernels[i] := Array.getElem?_eq_getElem small
  have entry' : c.kernels[j]? = some c.kernels[j] := Array.getElem?_eq_getElem small'
  simp only [entry, entry', Option.getD_some] at same
  exact h.number_unique entry entry' fun b => Set.ext_iff.1 same b

theorem kernel_of_merges (merges : g.Merges kernel.lookaheadSet) :
    g.Kernel {b | b ∈ kernel.keys} := by
  obtain ⟨γ, leads⟩ := merges.reached
  exact kernel_iff.2 ⟨merges.inhabited, γ, Set.ext leads⟩

theorem collection_subset
    (merges : ∀ (i : Nat) (K : ItemSet), c.kernels[i]? = some K → g.Merges K.lookaheadSet) :
    c.collection ⊆ {K | g.Kernel K} := by
  rintro S ⟨i, K, entry, rfl⟩
  exact kernel_of_merges (merges i K entry)

/-- A kernel that is not found when all numbers are taken is one more than there are numbers. -/
theorem lt_encard_of_missing {S : Set Item} (h : Sound g c)
    (merges : ∀ (i : Nat) (K : ItemSet), c.kernels[i]? = some K → g.Merges K.lookaheadSet)
    (kernel : g.Kernel S) (missing : S ∉ c.collection) (full : stateLimit ≤ c.kernels.size) :
    65536 < {K | g.Kernel K}.encard := by
  have subset : insert S c.collection ⊆ {K | g.Kernel K} :=
    Set.insert_subset kernel (collection_subset merges)
  calc (65536 : ℕ∞) = stateLimit := rfl
    _ ≤ c.kernels.size := Nat.cast_le.2 full
    _ < c.kernels.size + 1 := by exact_mod_cast Nat.lt_succ_self _
    _ = (insert S c.collection).encard := by
      rw [Set.encard_insert_of_notMem missing, encard_collection h]
    _ ≤ {K | g.Kernel K}.encard := Set.encard_le_encard subset

theorem intern_eq_error (failed : c.intern kernel = .error e) :
    c.numbers[kernel.keys]? = none ∧ stateLimit ≤ c.kernels.size := by
  unfold intern at failed
  split at failed
  · cases failed
  · next fresh =>
    dsimp only at failed
    split at failed
    · next full => exact ⟨fresh, full⟩
    · cases failed

/-- Interning several kernels fails at one of them. -/
theorem internAll_eq_error {entries : List (Symbol × ItemSet)}
    (failed : c.internAll edges entries = .error e) : ∃ front X kernel rest edges' c',
      entries = front ++ (X, kernel) :: rest ∧ c.internAll edges front = .ok (edges', c') ∧
      c'.intern (OrderedMap.sortKeys kernel) = .error e := by
  induction entries generalizing c edges with
  | nil => cases failed
  | cons entry rest ih =>
    obtain ⟨X, kernel⟩ := entry
    unfold internAll at failed
    split at failed
    · next interned =>
      cases failed
      exact ⟨[], X, kernel, rest, edges, c, rfl, rfl, interned⟩
    · next i c₁ interned =>
      obtain ⟨front, Y, L, back, edges', c', rfl, done, there⟩ := ih failed
      refine ⟨(X, kernel) :: front, Y, L, back, edges', c', rfl, ?_, there⟩
      rw [internAll, interned]
      exact done

theorem lt_encard_of_internAll {entries : List (Symbol × ItemSet)} (h : Sound g c)
    (merges : ∀ (i : Nat) (K : ItemSet), c.kernels[i]? = some K → g.Merges K.lookaheadSet)
    (successor : ∀ e ∈ entries,
      g.Contains (ItemSet.lookaheadSet e.2) ∧ g.Merges (ItemSet.lookaheadSet e.2))
    (failed : c.internAll edges entries = .error e) : 65536 < {K | g.Kernel K}.encard := by
  obtain ⟨front, X, kernel, rest, edges', c', rfl, done, interned⟩ := internAll_eq_error failed
  obtain ⟨before, behind⟩ := List.forall_mem_append.1 successor
  have contains := fun e member => (before e member).1
  have sound : Sound g c' := (internAll_interned h contains done).sound
  have merges' := internAll_kernels (P := g.Merges)
    (Q := fun _ K => g.Merges (ItemSet.lookaheadSet K))
    (fun _ _ _ kernel same old => old.absorb kernel same) (fun _ _ _ kernel => kernel) h contains
    (fun e member => (before e member).2) done merges
  have here : g.Merges (ItemSet.lookaheadSet kernel.sortKeys) := by
    rw [ItemSet.lookaheadSet_sortKeys]
    exact (behind _ (List.mem_cons_self ..)).2
  obtain ⟨fresh, full⟩ := intern_eq_error interned
  refine lt_encard_of_missing sound merges' (kernel_of_merges here) ?_ full
  rintro ⟨i, K, entry, same⟩
  have keys := eq_of_pairwise_lt kernel.pairwise_keys_sortKeys (sound.sorted i K entry)
    (Set.ext_iff.1 same)
  cases fresh.symm.trans ((sound.numbers _ _).2 ⟨K, entry, keys.symm⟩)

/-- A marker runs over only in the last state, and the goto set with the moved marker is one kernel
too many. -/
theorem Faithful.lt_encard_of_not_fits {K : ItemSet} {i : Nat} (h : Faithful g c)
    (entry : c.kernels[i]? = some K) (unfit : ¬ K.Fits g) : 65536 < {K | g.Kernel K}.encard := by
  simp only [ItemSet.Fits, not_forall, Nat.not_lt] at unfit
  obtain ⟨a, X, core, next, full⟩ := unfit
  obtain ⟨le, -⟩ := h.marker_le entry core
  have inside := (Array.getElem?_eq_some_iff.1 entry).1
  have moved : ((K.lookaheadSet.close g).goto g X).core a.moved := ⟨a, core, next, rfl⟩
  obtain ⟨γ, leads⟩ := ((h.merges i K entry).goto ⟨_, moved⟩).reached
  refine lt_encard_of_missing h.valid.sound h.merges
    (kernel_iff.2 ⟨⟨a.moved, moved⟩, γ, Set.ext leads⟩) ?_ (Nat.le_trans (Nat.succ_le_succ full) ?_)
  · rintro ⟨j, L, there, same⟩
    have ranked := h.ranked j L there a.moved ((Set.ext_iff.1 same a.moved).1 moved)
    have within := (Array.getElem?_eq_some_iff.1 there).1
    have limit : c.kernels.size ≤ 65536 := h.valid.sound.limit
    change a.marker + 1 ≤ j at ranked
    omega
  · omega

/-- The loop fails only at a state with a goto set that is one kernel too many. -/
theorem lt_encard_of_loop (linked : g.Linked) (accept : g.acceptRule.isSome)
    (short : g.AcceptFits) {fuel : Nat}
    (failed : iterateExcept more (step g (.compute g)) fuel .initial = .error e) :
    65536 < {K | g.Kernel K}.encard := by
  obtain ⟨c, faithful, ongoing, failed⟩ := exists_of_iterateExcept_eq_error (P := Faithful g)
    (fun s t h ongoing done => step_faithful linked short h ongoing done) _ _
    (initial_faithful linked accept) failed
  obtain ⟨i, pending, K, -, entry, sound, successor, visit⟩ :=
    exists_visit linked faithful.valid ongoing
  by_cases fits : K.Fits g
  · refine lt_encard_of_internAll sound faithful.merges (fun e member => ?_)
      (map_eq_error (visit.symm.trans failed))
    obtain ⟨advanced, contains⟩ := successor e member
    exact ⟨contains, fits.merges linked (faithful.merges i K entry) member advanced⟩
  · exact faithful.lt_encard_of_not_fits entry fits

end Construction

namespace Automaton

variable {g : Grammar} {a : Automaton} {c : Construction} {i : Nat} {s : State}

/-- There is one state for each kernel of the LR(0) collection, and the edges lead from kernels
to their successors. -/
structure Enumerates (g : Grammar) (a : Automaton) : Prop where
  size : a.states.size = {K | g.Kernel K}.encard
  kernel : ∀ K, g.Kernel K ↔
    ∃ (i : Nat) (s : State), a.states[i]? = some s ∧ K = {b | b ∈ s.kernel}
  distinct : ∀ (i j : Nat) (s s' : State), a.states[i]? = some s → a.states[j]? = some s' →
    s.kernel = s'.kernel → i = j
  initial : ∃ s : State, a.states[0]? = some s ∧ s.kernel = [.initial]
  sorted : ∀ (i : Nat) (s : State), a.states[i]? = some s →
    s.kernel.Pairwise (compare · · = .lt)
  closed : ∀ (i : Nat) (s : State), a.states[i]? = some s →
    ∀ b, b ∈ s.items.keys ↔ CloseCore g (.bare {b | b ∈ s.kernel}) b
  edge : ∀ (i : Nat) (s : State), a.states[i]? = some s →
    ∀ X, (∃ k, s.next X = some k) ↔ ∃ b ∈ s.items.keys, b.nextSymbol g = some X
  target : ∀ (i : Nat) (s : State), a.states[i]? = some s → ∀ X k, s.next X = some k →
    ∃ s' : State, a.states[k]? = some s' ∧
      ∀ b, b ∈ s'.kernel ↔ ∃ d ∈ s.items.keys, d.nextSymbol g = some X ∧ b = d.moved
  reached : ∀ (i : Nat) (s : State), a.states[i]? = some s → ∃ γ, a.walk γ = some i

/-- A finished construction has found every kernel. -/
theorem Built.collection_eq (built : a.Built g c) : c.collection = {K | g.Kernel K} := by
  refine Set.Subset.antisymm (Construction.collection_subset built.faithful.merges) ?_
  intro K kernel
  obtain ⟨⟨b, member⟩, γ, rfl⟩ := kernel_iff.1 kernel
  rcases built.walk_cases γ with ⟨-, empty⟩ | ⟨i, -, -, K, entry, cores, -⟩
  · exact absurd member (empty b)
  · exact ⟨i, K, entry, Set.ext fun b => (cores b).symm⟩

/-- What a state consists of, and where its edges lead. -/
theorem Built.origin (built : a.Built g c) (wf : g.WellFormed) (state : a.states[i]? = some s) :
    ∃ K : ItemSet, c.kernels[i]? = some K ∧ s.kernel = K.keys ∧
    s.items.lookaheadSet = K.lookaheadSet.close g ∧
    (∀ X, (∃ k, s.next X = some k) ↔ ∃ b, ((K.lookaheadSet.close g).goto g X).core b) ∧
    ∀ X k, s.next X = some k → c.Covers k ((K.lookaheadSet.close g).goto g X) := by
  obtain ⟨K, E, entry, -, -⟩ := built.state_iff.1 state
  obtain ⟨E', state', keys, targets⟩ := built.settled entry
  cases state.symm.trans state'
  refine ⟨K, entry, rfl, items_finish wf, fun X => ?_, fun X k edge => ?_⟩
  · rw [Construction.next_finish, ← keys X, OrderedMap.mem_keys_iff]
  · exact targets X k (Construction.next_finish ▸ edge)

/-- Every kernel found belongs to a state. -/
theorem Built.exists_state (built : a.Built g c) {K : ItemSet} (entry : c.kernels[i]? = some K) :
    ∃ s : State, a.states[i]? = some s ∧ s.kernel = K.keys := by
  obtain ⟨E, state, -, -⟩ := built.settled entry
  exact ⟨_, state, rfl⟩

theorem Built.size_states (built : a.Built g c) : a.states.size = c.kernels.size := by
  rw [built.states, Array.size_zipWith, built.faithful.valid.sound.edges, Nat.min_self]

theorem Built.enumerates (built : a.Built g c) (wf : g.WellFormed) (accept : g.start.isSome) :
    a.Enumerates g := by
  have sound := built.faithful.valid.sound
  constructor
  case size =>
    rw [← built.collection_eq, Construction.encard_collection sound, built.size_states]
  case kernel =>
    intro S
    change S ∈ {K | g.Kernel K} ↔ _
    rw [← built.collection_eq]
    constructor
    · rintro ⟨i, K, entry, rfl⟩
      obtain ⟨s, state, same⟩ := built.exists_state entry
      exact ⟨i, s, state, by rw [same]⟩
    · rintro ⟨i, s, state, rfl⟩
      obtain ⟨K, entry, same, -⟩ := built.origin wf state
      exact ⟨i, K, entry, by rw [same]⟩
  case distinct =>
    intro i j s s' state state' same
    obtain ⟨K, entry, keys, -⟩ := built.origin wf state
    obtain ⟨L, entry', keys', -⟩ := built.origin wf state'
    exact sound.number_unique entry entry' fun b => by rw [← keys, ← keys', same]
  case initial =>
    obtain ⟨K, entry, keys, -⟩ := sound.first
    obtain ⟨s, state, same⟩ := built.exists_state entry
    exact ⟨s, state, same.trans keys⟩
  case sorted =>
    intro i s state
    obtain ⟨K, entry, keys, -⟩ := built.origin wf state
    exact keys ▸ sound.sorted i K entry
  case closed =>
    intro i s state b
    obtain ⟨K, -, keys, items, -⟩ := built.origin wf state
    have same (b : Item) : K.lookaheadSet.core b ↔ (bare {b | b ∈ s.kernel}).core b := by
      change b ∈ K.keys ↔ b ∈ s.kernel
      rw [keys]
    change s.items.lookaheadSet.core b ↔ _
    rw [items]
    exact ⟨CloseCore.mono fun b => (same b).1, CloseCore.mono fun b => (same b).2⟩
  case edge =>
    intro i s state X
    obtain ⟨K, -, -, items, edges, -⟩ := built.origin wf state
    rw [edges, ← items]
    constructor
    · rintro ⟨-, b, member, next, -⟩
      exact ⟨b, member, next⟩
    · rintro ⟨b, member, next⟩
      exact ⟨_, b, member, next, rfl⟩
  case target =>
    intro i s state X k edge
    obtain ⟨K, -, -, items, -, targets⟩ := built.origin wf state
    obtain ⟨L, entry, cores, -⟩ := targets X k edge
    obtain ⟨s', state', same⟩ := built.exists_state entry
    refine ⟨s', state', fun b => ?_⟩
    change _ ↔ ∃ d, s.items.lookaheadSet.core d ∧ d.nextSymbol g = some X ∧ b = d.moved
    rw [same, items]
    exact cores b
  case reached => exact (built.isLALR wf accept).reached

/-- Construction fails exactly if there are more kernels than numbers of 16 bits. Otherwise the
states are the kernels. -/
theorem construct_enumerates (defined : g.Defined) (accept : g.start.isSome) :
    (Automaton.construct g (.compute g) = .error .tooManyStates ↔
      65536 < {K | g.Kernel K}.encard) ∧
    ({K | g.Kernel K}.encard ≤ 65536 →
      ∃ a, Automaton.construct g (.compute g) = .ok a ∧ a.Enumerates g) := by
  have wf := defined.wellFormed
  cases done : Automaton.construct g (.compute g) with
  | error e =>
    have loop := map_eq_error ((construct_eq (wf.acceptRule accept)).symm.trans done)
    have more := Construction.lt_encard_of_loop wf.linked (wf.acceptRule accept) wf.acceptFits loop
    cases e
    exact ⟨iff_of_true rfl more, fun few => absurd more (not_lt.2 few)⟩
  | ok a =>
    obtain ⟨c, built⟩ := exists_built wf.linked (wf.acceptRule accept) wf.acceptFits done
    have enumerates := built.enumerates wf accept
    have few : {K | g.Kernel K}.encard ≤ 65536 := by
      rw [← enumerates.size, built.size_states]
      exact_mod_cast built.faithful.valid.sound.limit
    exact ⟨iff_of_false (by simp) (not_lt.2 few), fun _ => ⟨a, rfl, enumerates⟩⟩

/-- Nested pairs have five kernels. -/
theorem construct_enumerates_nestedPairs : ∃ g a, Grammar.define nestedPairs = .ok g ∧
    Automaton.construct g (.compute g) = .ok a ∧ {K | g.Kernel K}.encard = 5 ∧
    a.Enumerates g := by
  have check : passes nestedPairs (fun g a => g.start.isSome ∧ a.states.size = 5) = true := by
    decide +kernel
  obtain ⟨g, a, defined, built, check⟩ := exists_of_passes check
  obtain ⟨accept, size⟩ := of_decide_eq_true check
  obtain ⟨fails, enumerates⟩ := construct_enumerates (.steps defined (by decide)) accept
  have few : {K | g.Kernel K}.encard ≤ 65536 := not_lt.1 fun more => by
    cases built.symm.trans (fails.2 more)
  obtain ⟨a', built', enumerates⟩ := enumerates few
  cases built.symm.trans built'
  exact ⟨g, a, defined, built, by rw [← enumerates.size, size]; rfl, enumerates⟩

end Automaton
end Lalr
