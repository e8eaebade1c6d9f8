import Lalr.Proofs.Automaton.Merged
import Lalr.Proofs.Grammar.Defined
import Mathlib.Data.List.Nodup

/-! The constructed automaton is the LALR(1) automaton: it reads the strings whose canonical item
set is not empty, states have the items of the canonical sets of the strings that lead to them,
and the lookaheads of an item are those that it has in any of these sets. -/
namespace Lalr

open Grammar LookaheadSet

def State.next (s : State) : Symbol → Option Nat
  | .terminal t => s.shifts.get? t
  | .nonterminal n => s.gotos.get? n

namespace Automaton

def follow (a : Automaton) (i : Nat) (X : Symbol) : Option Nat :=
  a.states[i]?.bind fun s => s.next X

/-- The state at the end of the path from the first state that a string labels. -/
def walk (a : Automaton) (γ : List Symbol) : Option Nat := γ.foldlM a.follow 0

/-- The states are the merged canonical LR(1) item sets. -/
structure IsLALR (g : Grammar) (a : Automaton) : Prop where
  path : ∀ γ, (∃ i, a.walk γ = some i) ↔ ∃ c, (g.canonical γ).core c
  state : ∀ γ i, a.walk γ = some i → ∃ s, a.states[i]? = some s
  items : ∀ γ i s, a.walk γ = some i → a.states[i]? = some s →
    ∀ c, c ∈ s.items.keys ↔ (g.canonical γ).core c
  lookaheads : ∀ i s, a.states[i]? = some s → ∀ c t, t ∈ (s.items.get? c).getD ∅ ↔
    ∃ γ, a.walk γ = some i ∧ (g.canonical γ).lookahead c t
  reached : ∀ i s, a.states[i]? = some s → ∃ γ, a.walk γ = some i
  merged : ∀ γ δ i, a.walk γ = some i → (∀ c, (g.canonical γ).core c ↔ (g.canonical δ).core c) →
    a.walk δ = some i

variable {g : Grammar} {a : Automaton} {γ : List Symbol} {i : Nat} {X : Symbol}

@[simp] theorem walk_nil : a.walk [] = some 0 := rfl

theorem walk_concat : a.walk (γ ++ [X]) = (a.walk γ).bind (a.follow · X) := by
  simp [walk, List.foldlM_append]

end Automaton

namespace Construction

variable {g : Grammar} {first : FirstSets} {K : ItemSet} {E : OrderedMap Symbol Nat} {X : Symbol}

/-- The edges of a state are those that were collected, told apart by the kind of symbol. -/
theorem next_finish : (finish g first K E).next X = E.get? X := by
  have entries {κ : Type} [DecidableEq κ] (part : Symbol → Option κ)
      (inject : ∀ X Y k, k ∈ part X → k ∈ part Y → X = Y) {k : κ} (this : part X = some k) :
      (OrderedMap.ofList (E.toList.filterMap fun e => (part e.1).map (·, e.2))).get? k =
        E.get? X := by
    have keys : (E.toList.filterMap fun e => (part e.1).map (·, e.2)).map Prod.fst =
        E.keys.filterMap part := by
      simp [OrderedMap.keys, List.map_filterMap, List.filterMap_map, Function.comp_def]
    have nodup := keys ▸ E.keys_nodup.filterMap inject
    ext n
    rw [OrderedMap.get?_ofList nodup, List.mem_filterMap, ← OrderedMap.mem_toList_iff]
    constructor
    · rintro ⟨⟨Y, m⟩, member, eq⟩
      obtain ⟨l, there, same⟩ := Option.map_eq_some_iff.1 eq
      cases same
      exact inject Y X k there this ▸ member
    · intro member
      exact ⟨(X, n), member, by simp [this]⟩
  cases X with
  | terminal t =>
    refine entries Symbol.terminal? (fun X Y k hX hY => ?_) rfl
    cases X <;> cases Y <;> simp_all [Symbol.terminal?]
  | nonterminal n =>
    refine entries Symbol.nonterminal? (fun X Y k hX hY => ?_) rfl
    cases X <;> cases Y <;> simp_all [Symbol.nonterminal?]

end Construction

namespace Automaton

variable {g : Grammar} {a : Automaton} {c : Construction} {γ δ : List Symbol} {i k : Nat}
  {K : ItemSet} {s : State} {X : Symbol} {b : Item} {t : TerminalId}

structure Built (g : Grammar) (a : Automaton) (c : Construction) : Prop where
  faithful : c.Faithful g
  short : g.AcceptFits
  idle : c.pending.toList = []
  states : a.states = c.kernels.zipWith (Construction.finish g (.compute g)) c.edges

/-- The automaton that is constructed is that of a finished construction. -/
theorem exists_built (linked : g.Linked) (accept : g.acceptRule.isSome) (short : g.AcceptFits)
    (done : Automaton.construct g (.compute g) = .ok a) : ∃ c, a.Built g c := by
  obtain ⟨c, loop, rfl⟩ := map_eq_ok ((construct_eq accept).symm.trans done)
  have faithful := iterateExcept_invariant (P := Construction.Faithful g)
    (fun s t h ongoing done => Construction.step_faithful linked short h ongoing done) _ _
    (Construction.initial_faithful linked accept) loop
  exact ⟨c, faithful, short, (Construction.loop_valid linked accept loop).2, rfl⟩

namespace Built

theorem state_iff (built : a.Built g c) : a.states[i]? = some s ↔ ∃ K E, c.kernels[i]? = some K ∧
    c.edges[i]? = some E ∧ s = Construction.finish g (.compute g) K E := by
  rw [built.states, Array.getElem?_zipWith]
  cases c.kernels[i]? with
  | none => simp
  | some K =>
    cases c.edges[i]? with
    | none => simp
    | some E => simp [eq_comm]

/-- Every state has edges to states that cover its goto sets. -/
theorem settled (built : a.Built g c) (entry : c.kernels[i]? = some K) : ∃ E,
    a.states[i]? = some (Construction.finish g (.compute g) K E) ∧
    (∀ X, X ∈ E.keys ↔ ∃ b, ((K.lookaheadSet.close g).goto g X).core b) ∧
    ∀ X k, E.get? X = some k → c.Covers k ((K.lookaheadSet.close g).goto g X) := by
  obtain ⟨small, -⟩ := Array.getElem?_eq_some_iff.1 entry
  rcases built.faithful.valid.settled i small with waits | settled
  · simp [built.idle] at waits
  · have fits := built.faithful.fits_of_settled built.short entry settled
    obtain ⟨K', E, entry', edges, keys, covers⟩ := settled
    cases entry.symm.trans entry'
    simp only [fits.advance_eq_goto] at keys covers
    exact ⟨E, built.state_iff.2 ⟨K, E, entry, edges, rfl⟩, keys, covers⟩

/-- One symbol more: a state that covers a canonical kernel has an edge exactly if the next
canonical kernel is not empty, and the edge leads to a state that covers it. -/
theorem follow_cases (built : a.Built g c) (covers : c.Covers i (g.canonicalKernel γ)) (X : Symbol) :
    (a.follow i X = none ∧ ∀ b, ¬ (g.canonicalKernel (γ ++ [X])).core b) ∨
    ∃ k, a.follow i X = some k ∧ (∃ b, (g.canonicalKernel (γ ++ [X])).core b) ∧
      c.Covers k (g.canonicalKernel (γ ++ [X])) := by
  obtain ⟨K, entry, leads, lookaheads⟩ := covers
  obtain ⟨E, state, keys, targets⟩ := built.settled entry
  have cores : g.LeadsTo (γ ++ [X]) ((K.lookaheadSet.close g).goto g X) := LeadsTo.goto leads X
  have edge : a.follow i X = E.get? X := by
    simp only [follow, state, Option.bind_some, Construction.next_finish]
  rw [edge]
  cases there : E.get? X with
  | none =>
    refine .inl ⟨rfl, fun b member => OrderedMap.get?_eq_none_iff.1 there ?_⟩
    exact (keys X).2 ⟨b, (cores b).2 member⟩
  | some k =>
    obtain ⟨b, member⟩ := (keys X).1 (OrderedMap.mem_keys_of_get? there)
    obtain ⟨L, entry', same, gained⟩ := targets X k there
    refine .inr ⟨k, rfl, ⟨b, (cores b).1 member⟩, L, entry', fun d => (same d).trans (cores d),
      fun d t inKernel => gained d t ?_⟩
    rw [canonicalKernel_append, canonical_eq_close] at inKernel
    obtain ⟨e, inSet, next, rfl⟩ := inKernel
    exact ⟨e, inSet.mono (fun e => (leads e).2) lookaheads, next, rfl⟩

/-- A path ends at a state that covers the canonical kernel, and there is a path exactly if the
kernel is not empty. -/
theorem walk_cases (built : a.Built g c) (γ : List Symbol) :
    (a.walk γ = none ∧ ∀ b, ¬ (g.canonicalKernel γ).core b) ∨
    ∃ i, a.walk γ = some i ∧ (∃ b, (g.canonicalKernel γ).core b) ∧
      c.Covers i (g.canonicalKernel γ) := by
  induction γ using List.reverseRecOn with
  | nil =>
    obtain ⟨K, entry, keys, lookahead⟩ := built.faithful.valid.sound.first
    refine .inr ⟨0, walk_nil, ⟨.initial, rfl⟩, K, entry, fun b => ?_, ?_⟩
    · change b ∈ K.keys ↔ b = .initial
      simp only [keys, List.mem_singleton]
    · rintro b t ⟨rfl, rfl⟩
      exact lookahead
  | append_singleton γ X ih =>
    rw [walk_concat]
    rcases ih with ⟨none, empty⟩ | ⟨i, path, -, covers⟩
    · refine .inl ⟨by rw [none, Option.bind_none], fun b member => ?_⟩
      rw [canonicalKernel_append, canonical_eq_close] at member
      obtain ⟨d, inSet, -, -⟩ := member
      exact inSet.exists_kernel.elim empty
    · rw [path, Option.bind_some]
      exact built.follow_cases covers X

theorem covers_of_walk (built : a.Built g c) (path : a.walk γ = some i) :
    c.Covers i (g.canonicalKernel γ) := by
  rcases built.walk_cases γ with ⟨none, -⟩ | ⟨k, path', -, covers⟩
  · cases path.symm.trans none
  · cases path.symm.trans path'
    exact covers

/-- A state is at the end of every path whose canonical kernel has its items. -/
theorem walk_of_leadsTo (built : a.Built g c) (entry : c.kernels[i]? = some K)
    (leads : g.LeadsTo γ K.lookaheadSet) : a.walk γ = some i := by
  have sound := built.faithful.valid.sound
  rcases built.walk_cases γ with ⟨-, empty⟩ | ⟨k, path, -, L, entry', cores, -⟩
  · obtain ⟨b, member⟩ := (built.faithful.merges i K entry).inhabited
    exact absurd ((leads b).1 member) (empty b)
  · rw [path, sound.number_unique entry' entry fun b => (cores b).trans (leads b).symm]

theorem items_finish (wf : g.WellFormed) {E : OrderedMap Symbol Nat} :
    (Construction.finish g (.compute g) K E).items.lookaheadSet = K.lookaheadSet.close g :=
  lookaheadSet_closure wf.linked K

theorem isLALR (built : a.Built g c) (wf : g.WellFormed) (accept : g.start.isSome) :
    a.IsLALR g := by
  constructor
  case path =>
    intro γ
    rw [canonical_eq_close]
    rcases built.walk_cases γ with ⟨none, empty⟩ | ⟨i, path, ⟨b, member⟩, -⟩
    · rw [none]
      constructor
      · rintro ⟨i, eq⟩
        cases eq
      · rintro ⟨b, member⟩
        exact (CloseCore.exists_kernel member).elim fun d inKernel => absurd inKernel (empty d)
    · exact iff_of_true ⟨i, path⟩ ⟨b, .kernel member⟩
  case state =>
    intro γ i path
    obtain ⟨K, entry, -⟩ := built.covers_of_walk path
    obtain ⟨E, state, -⟩ := built.settled entry
    exact ⟨_, state⟩
  case items =>
    intro γ i s path state b
    obtain ⟨K, entry, leads, -⟩ := built.covers_of_walk path
    obtain ⟨K', E, entry', -, rfl⟩ := built.state_iff.1 state
    cases entry.symm.trans entry'
    change (ItemSet.lookaheadSet _).core b ↔ _
    rw [items_finish wf]
    exact LeadsTo.close leads
  case lookaheads =>
    intro i s state b t
    obtain ⟨K, E, entry, -, rfl⟩ := built.state_iff.1 state
    change (ItemSet.lookaheadSet _).lookahead b t ↔ _
    rw [items_finish wf]
    constructor
    · intro member
      obtain ⟨γ, leads, inSet⟩ := (built.faithful.merges i K entry).close member
      exact ⟨γ, built.walk_of_leadsTo entry leads, inSet⟩
    · rintro ⟨γ, path, inSet⟩
      obtain ⟨K', entry', leads, lookaheads⟩ := built.covers_of_walk path
      cases entry.symm.trans entry'
      rw [canonical_eq_close] at inSet
      exact inSet.mono (fun d => (leads d).2) lookaheads
  case reached =>
    intro i s state
    obtain ⟨K, E, entry, -, rfl⟩ := built.state_iff.1 state
    obtain ⟨γ, leads⟩ := (built.faithful.merges i K entry).reached
    exact ⟨γ, built.walk_of_leadsTo entry leads⟩
  case merged =>
    intro γ δ i path same
    obtain ⟨K, entry, leads, -⟩ := built.covers_of_walk path
    refine built.walk_of_leadsTo entry fun b => (leads b).trans ?_
    simp only [core_kernel_iff wf accept, same]

end Built

/-- The construction yields the LALR(1) automaton. -/
theorem construct_isLALR (wf : g.WellFormed) (accept : g.start.isSome)
    (done : Automaton.construct g (.compute g) = .ok a) : a.IsLALR g := by
  obtain ⟨c, built⟩ := exists_built wf.linked (wf.acceptRule accept) wf.acceptFits done
  exact built.isLALR wf accept

/-- Without a start symbol there are no states. -/
theorem eq_empty_of_no_start (wf : g.WellFormed) (start : g.start = none)
    (done : Automaton.construct g (.compute g) = .ok a) : a = ⟨#[]⟩ := by
  rw [Automaton.construct, wf.no_accept start] at done
  exact (Except.ok.inj done).symm

/-- For every grammar that can be defined, the automaton that is constructed has merged exactly
the canonical item sets with equal items. -/
theorem lalr_of_defined (defined : g.Defined) (accept : g.start.isSome)
    (done : Automaton.construct g (.compute g) = .ok a) : a.IsLALR g :=
  construct_isLALR defined.wellFormed accept done

/-- Whether steps define a grammar that passes a test together with its automaton. -/
def passes (steps : List Declaration) (test : Grammar → Automaton → Bool) : Bool :=
  match Grammar.define steps with
  | .error _ => false
  | .ok g =>
    match Automaton.construct g (.compute g) with
    | .error _ => false
    | .ok a => test g a

theorem passes_eq {steps : List Declaration} {test : Grammar → Automaton → Bool}
    (defined : Grammar.define steps = .ok g)
    (built : Automaton.construct g (.compute g) = .ok a) : passes steps test = test g a := by
  simp only [passes, defined, built]

theorem exists_of_passes {steps : List Declaration} {test : Grammar → Automaton → Bool}
    (h : passes steps test = true) : ∃ g a, Grammar.define steps = .ok g ∧
      Automaton.construct g (.compute g) = .ok a ∧ test g a = true := by
  cases defined : Grammar.define steps with
  | error e => simp [passes, defined] at h
  | ok g =>
    cases built : Automaton.construct g (.compute g) with
    | error e => simp [passes, defined, built] at h
    | ok a => exact ⟨g, a, rfl, built, (passes_eq defined built).symm.trans h⟩

theorem nestedPairs_constructed : ∃ g a, Grammar.define nestedPairs = .ok g ∧
    g.start = some ⟨1⟩ ∧ g.rule? ⟨1⟩ = some pairRule ∧ g.rule? ⟨2⟩ = some emptyRule ∧
    Automaton.construct g (.compute g) = .ok a := by
  have check : passes nestedPairs (fun g _ =>
      g.start = some ⟨1⟩ ∧ g.rule? ⟨1⟩ = some pairRule ∧ g.rule? ⟨2⟩ = some emptyRule) = true := by
    decide +kernel
  obtain ⟨g, a, defined, built, check⟩ := exists_of_passes check
  obtain ⟨start, pair, empty⟩ := of_decide_eq_true check
  exact ⟨g, a, defined, start, pair, empty, built⟩

theorem lalr_of_nestedPairs : ∃ g a, Grammar.define nestedPairs = .ok g ∧
    Automaton.construct g (.compute g) = .ok a ∧ a.IsLALR g := by
  obtain ⟨g, a, defined, start, -, -, done⟩ := nestedPairs_constructed
  have accept : g.start.isSome := by rw [start]; rfl
  exact ⟨g, a, defined, done, lalr_of_defined (.steps defined (by decide)) accept done⟩

end Automaton
end Lalr
