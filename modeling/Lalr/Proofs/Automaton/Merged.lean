import Lalr.Proofs.Automaton.Construction

/-! What the kernels of states are: canonical kernels with the same items, merged. Markers are at
most the number of their state, as each move leads to a state found later. So a marker runs over
only in the last state that has a number, and then the kernel it stands in is not found. -/
namespace Lalr

open Grammar LookaheadSet

variable {g : Grammar} {kernel old K L : ItemSet} {i : Nat} {a : Item} {X : Symbol}

namespace Grammar

/-- The items of the accepting rule have markers of 16 bits. -/
def AcceptFits (g : Grammar) : Prop := ∀ rule, g.acceptRule = some rule → rule.right.size ≤ 65535

theorem acceptFits_of_eq {n : NonterminalId}
    (known : g.acceptRule = some (Builder.acceptingRule n)) : g.AcceptFits := by
  intro rule known'
  cases known.symm.trans known'
  exact Nat.le_of_ble_eq_true rfl

theorem WellFormed.acceptFits (wf : g.WellFormed) : g.AcceptFits := by
  cases start : g.start with
  | none => exact fun rule known => nomatch known.symm.trans (wf.no_accept start)
  | some n => exact acceptFits_of_eq (wf.accept n start)

theorem Merges.absorb (h : g.Merges old.lookaheadSet) (h' : g.Merges kernel.lookaheadSet)
    (same : old.keys = kernel.keys) : g.Merges (old.absorb kernel).lookaheadSet := by
  have core (a : Item) : (old.absorb kernel).lookaheadSet.core a ↔ old.lookaheadSet.core a := by
    change a ∈ (old.absorb kernel).keys ↔ a ∈ old.keys
    rw [ItemSet.keys_absorb same]
  have leads (γ : List Symbol) (leads : g.LeadsTo γ old.lookaheadSet) :
      g.LeadsTo γ (old.absorb kernel).lookaheadSet := fun a => (core a).trans (leads a)
  constructor
  case inhabited =>
    obtain ⟨a, member⟩ := h.inhabited
    exact ⟨a, (core a).2 member⟩
  case reached =>
    obtain ⟨γ, reached⟩ := h.reached
    exact ⟨γ, leads γ reached⟩
  case justified =>
    intro a t member
    rcases ItemSet.lookahead_absorb.1 member with member | member
    · obtain ⟨γ, reached, inPart⟩ := h.justified a t member
      exact ⟨γ, leads γ reached, inPart⟩
    · obtain ⟨γ, reached, inPart⟩ := h'.justified a t member
      refine ⟨γ, leads γ fun b => ?_, inPart⟩
      rw [← reached b]
      change b ∈ old.keys ↔ b ∈ kernel.keys
      rw [same]

/-- The only item of a kernel with nothing in front of its marker is the first one. -/
theorem Merges.rule_eq {r : RuleId} (h : g.Merges L.lookaheadSet) (member : ⟨r, 0⟩ ∈ L.keys) :
    r = .accept := by
  obtain ⟨γ, leads⟩ := h.reached
  have core : (g.canonicalKernel γ).core ⟨r, 0⟩ := (leads _).1 member
  rcases List.eq_nil_or_concat γ with rfl | ⟨δ, X, rfl⟩
  · exact congrArg Item.rule core
  · rw [List.concat_eq_append, canonicalKernel_append] at core
    obtain ⟨j, -, -, moved⟩ := core
    cases congrArg Item.marker moved

end Grammar

def ItemSet.Fits (g : Grammar) (K : ItemSet) : Prop :=
  ∀ a X, CloseCore g K.lookaheadSet a → a.nextSymbol g = some X → a.marker < 65535

theorem ItemSet.Fits.advance_eq_goto (fits : K.Fits g) (X : Symbol) :
    (K.lookaheadSet.close g).advance g X = (K.lookaheadSet.close g).goto g X :=
  LookaheadSet.advance_eq_goto K.supported.close fun a => fits a X

/-- Then the successors of a merged kernel are merged kernels. -/
theorem ItemSet.Fits.merges {e : Symbol × ItemSet} (fits : K.Fits g) (linked : g.Linked)
    (merges : g.Merges K.lookaheadSet)
    (member : e ∈ (successors g (closure g (.compute g) K)).toList)
    (advanced : e.2.lookaheadSet = (K.lookaheadSet.close g).advance g e.1) :
    g.Merges e.2.lookaheadSet := by
  rw [advanced, fits.advance_eq_goto]
  refine merges.goto ?_
  rw [← fits.advance_eq_goto, ← lookaheadSet_closure linked, ← mem_keys_successors]
  exact List.mem_map_of_mem member

/-- Where the marker of an item runs over, the items are not those of a merged kernel. -/
theorem marker_lt_of_merges (short : g.AcceptFits) (core : CloseCore g K.lookaheadSet a)
    (next : a.nextSymbol g = some X) (le : a.marker ≤ 65535) (merges : g.Merges L.lookaheadSet)
    (same : ∀ b, L.lookaheadSet.core b ↔ ((K.lookaheadSet.close g).advance g X).core b) :
    a.marker < 65535 := by
  refine Nat.lt_of_le_of_ne le fun full => ?_
  have wrapped : a.advance = ⟨a.rule, 0⟩ := by
    rw [Item.advance, full]
    rfl
  have member : ⟨a.rule, 0⟩ ∈ L.keys := wrapped ▸ (same a.advance).2 ⟨a, core, next, rfl⟩
  have accepting : a.rule = .accept := merges.rule_eq member
  obtain ⟨rule, known, marked⟩ := Option.bind_eq_some_iff.1 next
  obtain ⟨inside, -⟩ := Array.getElem?_eq_some_iff.1 marked
  rw [accepting] at known
  have size := short rule known
  omega

namespace Construction

variable {c c' : Construction} {edges edges' : OrderedMap Symbol Nat}

/-- What holds of all kernels is kept when kernels are merged into others and added to them. -/
theorem internAll_kernels {P : LookaheadSet → Prop} {Q : Nat → ItemSet → Prop}
    {entries : List (Symbol × ItemSet)}
    (merge : ∀ i (old kernel : ItemSet), P kernel.lookaheadSet → old.keys = kernel.keys →
      Q i old → Q i (old.absorb kernel))
    (extend : ∀ n (kernel : ItemSet), c.kernels.size ≤ n → P kernel.lookaheadSet → Q n kernel)
    (h : Sound g c) (contains : ∀ e ∈ entries, g.Contains (ItemSet.lookaheadSet e.2))
    (holds : ∀ e ∈ entries, P (ItemSet.lookaheadSet e.2))
    (done : c.internAll edges entries = .ok (edges', c'))
    (before : ∀ i K, c.kernels[i]? = some K → Q i K) : ∀ i K, c'.kernels[i]? = some K → Q i K := by
  have all := internAll_relates (g := g) (P := fun M => g.Contains M ∧ P M)
    (R := fun d d' => c.kernels.size ≤ d.kernels.size → (∀ i K, d.kernels[i]? = some K → Q i K) →
      c.kernels.size ≤ d'.kernels.size ∧ ∀ i K, d'.kernels[i]? = some K → Q i K)
    (fun _ => .intro)
    (fun _ _ _ first second le before =>
      have ⟨le, before⟩ := first le before
      second le before)
    (fun _ both => both.1) ?merge ?extend h
    (fun e member => ⟨contains e member, holds e member⟩) done
  · exact (all (Nat.le_refl _) before).2
  case merge =>
    intro d k old kernel both entry same le before
    refine ⟨size_merge kernel entry ▸ le, fun i K there => ?_⟩
    rw [getElem?_merge kernel entry] at there
    split at there
    · next here =>
      cases there
      exact here ▸ merge k old kernel both.2 same (before k old entry)
    · exact before i K there
  case extend =>
    intro d kernel both _ le before
    refine ⟨?_, fun i K there => ?_⟩
    · rw [Construction.extend, Array.size_push]
      exact Nat.le_succ_of_le le
    · rw [Construction.extend, Array.getElem?_push] at there
      split at there
      · next here =>
        cases there
        exact here ▸ extend _ kernel le both.2
      · exact before i K there

/-- Markers of kernel items are at most the number of the state. -/
def Ranked (c : Construction) : Prop :=
  ∀ (i : Nat) (K : ItemSet), c.kernels[i]? = some K → ∀ a ∈ K.keys, a.marker ≤ i

/-- The closure adds only items whose marker is in front. -/
theorem marker_le_of_closeCore {M : LookaheadSet} (small : ∀ a, M.core a → a.marker ≤ i)
    (h : CloseCore g M a) : a.marker ≤ i := by
  cases h with
  | kernel inKernel => exact small a inKernel
  | expand => exact Nat.zero_le _

theorem ranked_initial : initial.Ranked := by
  intro i K entry a member
  obtain ⟨inside, rfl⟩ := Array.getElem?_eq_some_iff.1 entry
  obtain rfl : i = 0 := Nat.lt_one_iff.1 inside
  obtain rfl : a = .initial := List.mem_singleton.1 member
  exact Nat.le_refl _

/-- A visit of state `i` moves markers to at most `i + 1`, and what is new has at least that
number. -/
theorem step_ranked (linked : g.Linked) (valid : Valid g c) (h : c.Ranked) (ongoing : c.more = true)
    (done : step g (.compute g) c = .ok c') : c'.Ranked := by
  obtain ⟨i, pending, K, -, entry, sound, successor, visit⟩ := exists_visit linked valid ongoing
  obtain ⟨⟨edges, c₁⟩, interned, rfl⟩ := map_eq_ok (visit.symm.trans done)
  have inside : i < c.kernels.size := (Array.getElem?_eq_some_iff.1 entry).1
  have advanced (X : Symbol) (a : Item) (core : ((K.lookaheadSet.close g).advance g X).core a) :
      a.marker ≤ i + 1 := by
    obtain ⟨b, closed, -, rfl⟩ := core
    exact Nat.le_trans b.marker_advance_le
      (Nat.succ_le_succ (marker_le_of_closeCore (h i K entry) closed))
  have ranked : c₁.Ranked := internAll_kernels (c := { c with pending })
    (P := fun M => ∀ a, M.core a → a.marker ≤ i + 1)
    (fun k old kernel _ same ranked a member => ranked a (ItemSet.keys_absorb same ▸ member))
    (fun n kernel le small a member => Nat.le_trans (small a member) (Nat.le_trans inside le))
    sound (fun e member => (successor e member).2)
    (fun e member => (successor e member).1 ▸ advanced e.1) interned h
  exact ranked

/-- What holds between visits if no marker runs over. -/
structure Faithful (g : Grammar) (c : Construction) : Prop where
  valid : Valid g c
  ranked : c.Ranked
  merges : ∀ (i : Nat) (K : ItemSet), c.kernels[i]? = some K → g.Merges K.lookaheadSet

theorem Faithful.marker_le (h : Faithful g c) (entry : c.kernels[i]? = some K)
    (core : CloseCore g K.lookaheadSet a) : a.marker ≤ i ∧ a.marker ≤ 65535 := by
  have le := marker_le_of_closeCore (h.ranked i K entry) core
  have inside := (Array.getElem?_eq_some_iff.1 entry).1
  have limit : c.kernels.size ≤ 65536 := h.valid.sound.limit
  exact ⟨le, by omega⟩

/-- A settled state has moved its items without a marker that ran over. -/
theorem Faithful.fits_of_settled (h : Faithful g c) (short : g.AcceptFits)
    (entry : c.kernels[i]? = some K) (settled : Settled g c i) : K.Fits g := by
  intro a X core next
  obtain ⟨K', E, entry', -, keys, covers⟩ := settled
  cases entry.symm.trans entry'
  obtain ⟨k, edge⟩ := OrderedMap.mem_keys_iff.1 ((keys X).2 ⟨a.advance, a, core, next, rfl⟩)
  obtain ⟨L, there, same, -⟩ := covers X k edge
  exact marker_lt_of_merges short core next (h.marker_le entry core).2 (h.merges k L there) same

/-- A visit that succeeds moves no marker that runs over: it would do so only in the last state, and
all kernels that can be found are merged kernels. -/
theorem Faithful.fits_of_interned {pending : WorkList Nat} (h : Faithful g c) (linked : g.Linked)
    (short : g.AcceptFits) (entry : c.kernels[i]? = some K)
    (successor : ∀ e ∈ (successors g (closure g (.compute g) K)).toList,
      ItemSet.lookaheadSet e.2 = (K.lookaheadSet.close g).advance g e.1)
    (all : Interned g (successors g (closure g (.compute g) K)).toList ∅ edges
      { c with pending } c') : K.Fits g := by
  intro a X core next
  obtain ⟨le, small⟩ := h.marker_le entry core
  refine Nat.lt_of_le_of_ne small fun full => ?_
  have inside := (Array.getElem?_eq_some_iff.1 entry).1
  have found : X ∈ edges.keys := by
    rw [all.keys]
    refine .inr (mem_keys_successors.2 ⟨a.advance, a, ?_, next, rfl⟩)
    rw [lookaheadSet_closure linked]
    exact core
  obtain ⟨k, edge⟩ := OrderedMap.mem_keys_iff.1 found
  rcases all.covers X k edge with none | ⟨M, member, L, there, same, -⟩
  · cases none
  -- All numbers are taken, so the state behind the edge has been there before.
  have limit : c'.kernels.size ≤ 65536 := all.sound.limit
  have within := (Array.getElem?_eq_some_iff.1 there).1
  obtain ⟨M', old⟩ : ∃ M', c.kernels[k]? = some M' :=
    ⟨_, Array.getElem?_eq_getElem (show k < c.kernels.size by omega)⟩
  obtain ⟨L', there', keys, -⟩ := all.grows.kernel k _ old
  cases there.symm.trans there'
  have less := marker_lt_of_merges short core next small (h.merges k _ old) fun b => by
    rw [← successor (X, M) member, ← same b]
    change b ∈ OrderedMap.keys _ ↔ b ∈ OrderedMap.keys _
    rw [keys]
  omega

/-- A visit keeps kernels merged. -/
theorem step_faithful (linked : g.Linked) (short : g.AcceptFits) (h : Faithful g c)
    (ongoing : c.more = true) (done : step g (.compute g) c = .ok c') : Faithful g c' := by
  refine ⟨(step_valid linked h.valid ongoing done).1,
    step_ranked linked h.valid h.ranked ongoing done, ?_⟩
  obtain ⟨i, pending, K, -, entry, sound, successor, visit⟩ := exists_visit linked h.valid ongoing
  obtain ⟨⟨edges, c₁⟩, interned, rfl⟩ := map_eq_ok (visit.symm.trans done)
  have contains := fun e member => (successor e member).2
  have fits := h.fits_of_interned linked short entry (fun e member => (successor e member).1)
    (internAll_interned sound contains interned)
  have merged := fun e member =>
    fits.merges linked (h.merges i K entry) member (successor e member).1
  have kernels : ∀ k (L : ItemSet), c₁.kernels[k]? = some L → g.Merges L.lookaheadSet :=
    internAll_kernels (c := { c with pending }) (P := g.Merges)
      (Q := fun _ L => g.Merges (ItemSet.lookaheadSet L))
      (fun _ _ _ kernel same old => old.absorb kernel same) (fun _ _ _ kernel => kernel) sound
      contains merged interned h.merges
  exact kernels

theorem initial_faithful (linked : g.Linked) (accept : g.acceptRule.isSome) :
    Faithful g .initial := by
  refine ⟨initial_valid linked accept, ranked_initial, fun i K entry => ?_⟩
  obtain ⟨inside, rfl⟩ := Array.getElem?_eq_some_iff.1 entry
  obtain rfl : i = 0 := Nat.lt_one_iff.1 inside
  exact lookaheadSet_firstKernel ▸ Merges.initial

end Construction

end Lalr
