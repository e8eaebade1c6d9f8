import Lalr.Lexer.Nfa
import Mathlib.Computability.Language
import Mathlib.Order.CompletePartialOrder

/-! Paths of nondeterministic automata, and the two ways to reason about them: paths stay when
edges are added, and a language for each state that the edges respect bounds what paths read. -/
namespace Lalr.Lexer.Nfa

inductive Path (nfa : Nfa) : Nat → List UInt8 → Nat → Prop where
  | refl (i : Nat) : Path nfa i [] i
  | epsilon : k ∈ (nfa.state i).epsilons → Path nfa k w j → Path nfa i w j
  | edge {i k j : Nat} {label : ByteSet} {b : UInt8} {w : List UInt8} :
    (label, k) ∈ (nfa.state i).edges → b ∈ label → Path nfa k w j → Path nfa i (b :: w) j

variable {nfa nfa' : Nfa} {i j k source target : Nat} {u v w : List UInt8} {b : UInt8}
  {label : ByteSet} {V : Nat → Language UInt8}

theorem Path.trans (first : nfa.Path i u j) (second : nfa.Path j v k) :
    nfa.Path i (u ++ v) k := by
  induction first with
  | refl => exact second
  | epsilon edge _ ih => exact .epsilon edge (ih second)
  | edge edge member _ ih => exact .edge edge member (ih second)

theorem path_append_iff : nfa.Path i (u ++ v) k ↔ ∃ j, nfa.Path i u j ∧ nfa.Path j v k := by
  constructor
  · obtain ⟨w, eq⟩ : ∃ w, u ++ v = w := ⟨_, rfl⟩
    rw [eq]
    intro path
    induction path generalizing u with
    | refl i =>
      obtain ⟨rfl, rfl⟩ := List.append_eq_nil_iff.1 eq
      exact ⟨i, .refl i, .refl i⟩
    | epsilon edge _ ih =>
      obtain ⟨j, first, second⟩ := ih eq
      exact ⟨j, .epsilon edge first, second⟩
    | @edge i l k label b w edge member rest ih =>
      cases u with
      | nil =>
        obtain rfl : v = b :: w := eq
        exact ⟨i, .refl i, .edge edge member rest⟩
      | cons c u =>
        obtain ⟨rfl, tails⟩ := List.cons_eq_cons.1 eq
        obtain ⟨j, first, second⟩ := ih tails
        exact ⟨j, .edge edge member first, second⟩
  · rintro ⟨j, first, second⟩
    exact first.trans second

/-- Reading one byte is taking epsilon edges, an edge with the byte, and epsilon edges. -/
theorem path_singleton_iff : nfa.Path i [b] j ↔ ∃ k l label, nfa.Path i [] k ∧
    (label, l) ∈ (nfa.state k).edges ∧ b ∈ label ∧ nfa.Path l [] j := by
  constructor
  · obtain ⟨w, eq⟩ : ∃ w, [b] = w := ⟨_, rfl⟩
    rw [eq]
    intro path
    induction path with
    | refl => cases eq
    | epsilon edge _ ih =>
      obtain ⟨k, l, label, first, there, member, last⟩ := ih eq
      exact ⟨k, l, label, .epsilon edge first, there, member, last⟩
    | @edge i l j label c w edge member rest ih =>
      obtain ⟨rfl, rfl⟩ := List.cons_eq_cons.1 eq
      exact ⟨i, l, label, .refl i, edge, member, rest⟩
  · rintro ⟨k, l, label, first, there, member, last⟩
    exact first.trans (.edge there member last)

def Within (nfa nfa' : Nfa) : Prop :=
  ∀ i, (nfa.state i).edges ⊆ (nfa'.state i).edges ∧ (nfa.state i).epsilons ⊆ (nfa'.state i).epsilons

theorem Within.refl (nfa : Nfa) : nfa.Within nfa := fun _ => ⟨List.Subset.refl _, List.Subset.refl _⟩

theorem Within.trans {nfa'' : Nfa} (first : nfa.Within nfa') (second : nfa'.Within nfa'') :
    nfa.Within nfa'' := fun i =>
  ⟨List.Subset.trans (first i).1 (second i).1, List.Subset.trans (first i).2 (second i).2⟩

theorem Path.mono (path : nfa.Path i w j) (within : nfa.Within nfa') : nfa'.Path i w j := by
  induction path with
  | refl i => exact .refl i
  | epsilon edge _ ih => exact .epsilon ((within _).2 edge) ih
  | edge edge member _ ih => exact .edge ((within _).1 edge) member ih

/-- The language of the state holds what the edges add in front of the languages behind them. -/
structure Respects (nfa : Nfa) (V : Nat → Language UInt8) (i : Nat) : Prop where
  epsilon : ∀ k ∈ (nfa.state i).epsilons, V k ≤ V i
  edge : ∀ label k, (label, k) ∈ (nfa.state i).edges → ∀ b ∈ label, ∀ w ∈ V k, b :: w ∈ V i

/-- Languages that all edges respect bound what paths read. -/
theorem Path.append_mem (path : nfa.Path i w j) (respects : ∀ i, nfa.Respects V i)
    (member : v ∈ V j) : w ++ v ∈ V i := by
  induction path with
  | refl => exact member
  | epsilon edge _ ih => exact (respects _).epsilon _ edge (ih member)
  | edge edge inLabel _ ih => exact (respects _).edge _ _ edge _ inLabel _ (ih member)

def Bounded (nfa : Nfa) : Prop :=
  ∀ i, (∀ k ∈ (nfa.state i).epsilons, k < nfa.states.size) ∧
    ∀ label k, (label, k) ∈ (nfa.state i).edges → k < nfa.states.size

def EpsilonBounded (nfa : Nfa) : Prop :=
  ∀ i, ∀ k ∈ (nfa.state i).epsilons, k < nfa.states.size

theorem Bounded.epsilons (h : nfa.Bounded) : nfa.EpsilonBounded := fun i => (h i).1

theorem state_of_le (le : nfa.states.size ≤ i) : nfa.state i = {} := by
  simp only [state, Array.getElem?_eq_none le, Option.getD_none]

/-- What holds of a state without edges holds of all numbers if it holds of the states. -/
theorem forall_state_iff {P : NfaState → Prop} (blank : P {}) :
    (∀ i, P (nfa.state i)) ↔ ∀ s ∈ nfa.states.toList, P s := by
  constructor
  · intro always s member
    obtain ⟨i, there⟩ := Array.getElem?_of_mem (Array.mem_toList_iff.1 member)
    have here := always i
    rwa [state, there, Option.getD_some] at here
  · intro entries i
    cases there : nfa.states[i]? with
    | none => rwa [state, there, Option.getD_none]
    | some s =>
      rw [state, there, Option.getD_some]
      exact entries s (Array.mem_toList_iff.2 (Array.mem_of_getElem? there))

/-- New states leave the edges of the old ones. -/
theorem within_of_state (same : ∀ i < nfa.states.size, nfa'.state i = nfa.state i) :
    nfa.Within nfa' := by
  intro i
  by_cases old : i < nfa.states.size
  · rw [same i old]
    exact Within.refl nfa i
  · simp [state_of_le (Nat.le_of_not_lt old)]

theorem Path.lt (path : nfa.Path i w j) (bounded : nfa.Bounded) (small : i < nfa.states.size) :
    j < nfa.states.size := by
  induction path with
  | refl => exact small
  | epsilon edge _ ih => exact ih ((bounded _).1 _ edge)
  | edge edge _ _ ih => exact ih ((bounded _).2 _ _ edge)

def LeadsInto (nfa : Nfa) (n i : Nat) : Prop :=
  (∀ k ∈ (nfa.state i).epsilons, n ≤ k ∧ k < nfa.states.size) ∧
    ∀ label k, (label, k) ∈ (nfa.state i).edges → n ≤ k ∧ k < nfa.states.size

theorem Bounded.leadsInto (h : nfa.Bounded) (i : Nat) : nfa.LeadsInto 0 i :=
  ⟨fun k edge => ⟨Nat.zero_le k, (h i).1 k edge⟩,
    fun label k edge => ⟨Nat.zero_le k, (h i).2 label k edge⟩⟩

theorem leadsInto_of_empty {n : Nat} (empty : nfa.state i = {}) : nfa.LeadsInto n i := by
  simp [LeadsInto, empty]

/-- What leads into later states of a smaller automaton leads into earlier ones of a larger one. -/
theorem LeadsInto.mono {m n : Nat} (h : nfa.LeadsInto n i) (le : m ≤ n)
    (grows : nfa.states.size ≤ nfa'.states.size) (same : nfa'.state i = nfa.state i) :
    nfa'.LeadsInto m i := by
  rw [LeadsInto, same]
  refine ⟨fun k edge => ?_, fun label k edge => ?_⟩
  · have := h.1 k edge
    omega
  · have := h.2 label k edge
    omega

/-- Languages of states below a bound respect edges in a larger automaton with the same edges. -/
theorem Respects.extend {V' : Nat → Language UInt8} {n : Nat} (h : nfa.Respects V i)
    (inside : nfa.LeadsInto n i) (small : i < nfa.states.size) (same : nfa'.state i = nfa.state i)
    (agree : ∀ k < nfa.states.size, V' k = V k) : nfa'.Respects V' i where
  epsilon k edge := by
    rw [same] at edge
    rw [agree k (inside.1 k edge).2, agree i small]
    exact h.epsilon k edge
  edge label k edge b member w inV := by
    rw [same] at edge
    rw [agree k (inside.2 label k edge).2] at inV
    rw [agree i small]
    exact h.edge label k edge b member w inV

section Operations

@[simp] theorem size_addEdge : (nfa.addEdge source label target).states.size = nfa.states.size := by
  simp [addEdge]

@[simp] theorem size_addEpsilon : (nfa.addEpsilon source target).states.size = nfa.states.size := by
  simp [addEpsilon]

theorem state_addState (i : Nat) : nfa.addState.2.state i = nfa.state i := by
  simp only [state, addState, Array.getElem?_push]
  split
  · next last => rw [last, Array.getElem?_eq_none (Nat.le_refl _)]; rfl
  · rfl

theorem state_addEdge (small : source < nfa.states.size) (i : Nat) :
    (nfa.addEdge source label target).state i =
      if i = source then { nfa.state i with edges := (nfa.state i).edges ++ [(label, target)] }
      else nfa.state i := by
  simp only [state, addEdge, Array.getElem?_modify, eq_comm (a := source)]
  split
  · next same => rw [same, Array.getElem?_eq_getElem small]; rfl
  · rfl

theorem state_addEpsilon (small : source < nfa.states.size) (i : Nat) :
    (nfa.addEpsilon source target).state i =
      if i = source then { nfa.state i with epsilons := (nfa.state i).epsilons ++ [target] }
      else nfa.state i := by
  simp only [state, addEpsilon, Array.getElem?_modify, eq_comm (a := source)]
  split
  · next same => rw [same, Array.getElem?_eq_getElem small]; rfl
  · rfl

theorem within_addEpsilon (small : source < nfa.states.size) :
    nfa.Within (nfa.addEpsilon source target) := by
  intro i
  rw [state_addEpsilon small]
  split
  · exact ⟨List.Subset.refl _, List.subset_append_left ..⟩
  · exact ⟨List.Subset.refl _, List.Subset.refl _⟩

theorem path_addEpsilon (small : source < nfa.states.size) :
    (nfa.addEpsilon source target).Path source [] target := by
  refine .epsilon ?_ (.refl target)
  rw [state_addEpsilon small, if_pos rfl]
  exact List.mem_append_right _ List.mem_cons_self

theorem path_addEdge (small : source < nfa.states.size) (member : b ∈ label) :
    (nfa.addEdge source label target).Path source [b] target := by
  refine .edge ?_ member (.refl target)
  rw [state_addEdge small, if_pos rfl]
  exact List.mem_append_right _ List.mem_cons_self

theorem LeadsInto.addEpsilon {n : Nat} (h : nfa.LeadsInto n i) (small : source < nfa.states.size)
    (inside : n ≤ target ∧ target < nfa.states.size) :
    (nfa.addEpsilon source target).LeadsInto n i := by
  rw [LeadsInto, state_addEpsilon small, size_addEpsilon]
  split
  · refine ⟨fun k edge => ?_, h.2⟩
    rcases List.mem_append.1 edge with old | new
    · exact h.1 k old
    · rwa [List.mem_singleton.1 new]
  · exact h

theorem LeadsInto.addEdge {n : Nat} (h : nfa.LeadsInto n i) (small : source < nfa.states.size)
    (inside : n ≤ target ∧ target < nfa.states.size) :
    (nfa.addEdge source label target).LeadsInto n i := by
  rw [LeadsInto, state_addEdge small, size_addEdge]
  split
  · refine ⟨h.1, fun l k edge => ?_⟩
    rcases List.mem_append.1 edge with old | new
    · exact h.2 l k old
    · cases List.mem_singleton.1 new
      exact inside
  · exact h

/-- A new epsilon edge is respected if the language behind it is a part. -/
theorem Respects.addEpsilon (h : nfa.Respects V i) (small : source < nfa.states.size)
    (le : V target ≤ V source) : (nfa.addEpsilon source target).Respects V i := by
  have state : (nfa.addEpsilon source target).state i = _ := state_addEpsilon small i
  by_cases same : i = source
  · subst same
    rw [if_pos rfl] at state
    constructor
    case epsilon =>
      intro k edge
      rw [state] at edge
      rcases List.mem_append.1 edge with old | new
      · exact h.epsilon k old
      · rwa [List.mem_singleton.1 new]
    case edge =>
      intro l k edge
      rw [state] at edge
      exact h.edge l k edge
  · rw [if_neg same] at state
    exact ⟨fun k edge => h.epsilon k (state ▸ edge), fun l k edge => h.edge l k (state ▸ edge)⟩

def addEpsilons (nfa : Nfa) (edges : List (Nat × Nat)) : Nfa :=
  edges.foldl (fun nfa e => nfa.addEpsilon e.1 e.2) nfa

variable {edges : List (Nat × Nat)}

@[simp] theorem size_addEpsilons : (nfa.addEpsilons edges).states.size = nfa.states.size := by
  induction edges generalizing nfa with
  | nil => rfl
  | cons e rest ih => exact ih.trans size_addEpsilon

theorem within_addEpsilons (small : ∀ e ∈ edges, e.1 < nfa.states.size) :
    nfa.Within (nfa.addEpsilons edges) := by
  induction edges generalizing nfa with
  | nil => exact .refl nfa
  | cons e rest ih =>
    obtain ⟨here, others⟩ := List.forall_mem_cons.1 small
    exact (within_addEpsilon here).trans (ih (by simpa using others))

theorem path_addEpsilons (small : ∀ e ∈ edges, e.1 < nfa.states.size)
    (member : (source, target) ∈ edges) :
    (nfa.addEpsilons edges).Path source [] target := by
  induction edges generalizing nfa with
  | nil => cases member
  | cons e rest ih =>
    obtain ⟨here, others⟩ := List.forall_mem_cons.1 small
    have others : ∀ e' ∈ rest, e'.1 < (nfa.addEpsilon e.1 e.2).states.size := by simpa using others
    rcases List.mem_cons.1 member with rfl | later
    · exact (path_addEpsilon here).mono (within_addEpsilons others)
    · exact ih others later

theorem Respects.addEpsilons (h : nfa.Respects V i)
    (le : ∀ e ∈ edges, e.1 < nfa.states.size ∧ V e.2 ≤ V e.1) :
    (nfa.addEpsilons edges).Respects V i := by
  induction edges generalizing nfa with
  | nil => exact h
  | cons e rest ih =>
    obtain ⟨⟨small, part⟩, others⟩ := List.forall_mem_cons.1 le
    exact ih (h.addEpsilon small part) (by simpa using others)

end Operations

end Lalr.Lexer.Nfa
