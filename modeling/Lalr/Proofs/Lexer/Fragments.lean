import Lalr.Proofs.Lexer.Tokens

/-! What a new fragment is to the automaton that it is built in. The states that were there keep
what they had, the new ones have edges among themselves, and between the ends of the fragment
exactly the words of its pattern are read. -/
namespace Lalr.Lexer.Nfa

variable {nfa nfa' : Nfa} {f : Fragment} {i j : Nat} {w : List UInt8} {L : Language UInt8}

inductive Joins (nfa : Nfa) (i j : Nat) : Prop where
  | epsilon : j ∈ (nfa.state i).epsilons → Joins nfa i j
  | edge {label : ByteSet} : (label, j) ∈ (nfa.state i).edges → Joins nfa i j

theorem LeadsInto.joins {n : Nat} (h : nfa.LeadsInto n i) (joins : nfa.Joins i j) :
    n ≤ j ∧ j < nfa.states.size := by
  cases joins with
  | epsilon edge => exact h.1 j edge
  | edge edge => exact h.2 _ j edge

structure Adds (nfa nfa' : Nfa) (f : Fragment) (L : Language UInt8) : Prop where
  size : nfa.states.size ≤ nfa'.states.size
  old : ∀ i < nfa.states.size, nfa'.state i = nfa.state i
  starts : nfa'.starts = nfa.starts
  idle : ∀ i, nfa.states.size ≤ i → (nfa'.state i).accept = none
  inside : ∀ i j, nfa.states.size ≤ i → nfa'.Joins i j →
    nfa.states.size ≤ j ∧ j < nfa'.states.size
  /-- If the edges led to states before, none joins an old state and a new one. -/
  apart : nfa.Bounded → ∀ i j, nfa'.Joins i j → (i < nfa.states.size ↔ j < nfa.states.size)
  start : nfa.states.size ≤ f.start ∧ f.start < nfa'.states.size
  accept : nfa.states.size ≤ f.accept ∧ f.accept < nfa'.states.size
  path_iff : ∀ w, nfa'.Path f.start w f.accept ↔ w ∈ L

/-- Old states can be given every word, so that only new edges restrict what is read. -/
theorem Builds.path_iff (h : Builds nfa nfa' f L) (w : List UInt8) :
    nfa'.Path f.start w f.accept ↔ w ∈ L := by
  refine ⟨fun path => ?_, h.complete w⟩
  obtain ⟨V, frame, atAccept, atStart, respects⟩ := h.sound (fun _ => ⊤) 1
  have all : ∀ i, nfa'.Respects V i := by
    intro i
    by_cases old : i < nfa.states.size
    · constructor
      · intro k _
        rw [frame i old]
        exact le_top
      · intro label k _ b _ v _
        rw [frame i old]
        exact Set.mem_univ _
    · exact respects i (Nat.le_of_not_lt old)
  have nothing : [] ∈ V f.accept := by
    rw [atAccept]
    rfl
  have read := path.append_mem all nothing
  rwa [List.append_nil, atStart, mul_one] at read

theorem Builds.adds (h : Builds nfa nfa' f L) : Adds nfa nfa' f L where
  size := h.size
  old := h.state
  starts := h.starts
  idle := h.idle
  inside i j new joins := (h.inside i new).joins joins
  apart bounded i j joins := by
    by_cases old : i < nfa.states.size
    · have joins : nfa.Joins i j := by
        cases joins with
        | epsilon edge => exact .epsilon (h.state i old ▸ edge)
        | edge edge => exact .edge (h.state i old ▸ edge)
      exact iff_of_true old ((bounded.leadsInto i).joins joins).2
    · have := (h.inside i (Nat.le_of_not_lt old)).joins joins
      omega
  start := h.start
  accept := h.accept
  path_iff := h.path_iff

/-- The automaton of a token beside what the automaton held before. Its entry is one more start, and
its exit one more accepting state. -/
structure AddsToken (nfa nfa' : Nfa) (f : Fragment) (t : TokenPattern) : Prop where
  old : ∀ i < nfa.states.size, nfa'.state i = nfa.state i
  start : nfa.states.size ≤ f.start ∧ f.start < nfa'.states.size
  accept : nfa.states.size ≤ f.accept ∧ f.accept < nfa'.states.size
  starts : nfa'.starts = nfa.starts ++ [f.start]
  accepts : ∀ i a, (nfa'.state i).accept = some a ↔
    (nfa.state i).accept = some a ∨ i = f.accept ∧ a = ⟨t.terminal, t.priority⟩
  path_iff : ∃ p, Pattern.parse t.pattern = .ok p ∧
    ∀ w, nfa'.Path f.start w f.accept ↔ w ∈ p.language

/-- Accepting tokens does not change what is read. -/
theorem path_addToken_iff {a : TokenAccept} (small : f.accept < nfa.states.size) :
    (nfa.addToken f a).Path i w j ↔ nfa.Path i w j := by
  have back : (nfa.addToken f a).Within nfa := by
    intro l
    obtain ⟨edges, epsilons⟩ := edges_addToken (a := a) small l
    rw [edges, epsilons]
    exact Within.refl nfa l
  exact ⟨fun path => path.mono back, fun path => path.mono (within_addToken small)⟩

theorem addsToken_of_parse {t : TokenPattern} {p : Pattern}
    (parsed : Pattern.parse t.pattern = .ok p) :
    AddsToken nfa ((nfa.addPattern p).2.addToken (nfa.addPattern p).1 ⟨t.terminal, t.priority⟩)
      (nfa.addPattern p).1 t := by
  have builds := builds_addPattern p nfa
  generalize (nfa.addPattern p).1 = f at *
  generalize (nfa.addPattern p).2 = nfa' at *
  have small := builds.accept.2
  constructor
  case old =>
    intro i old
    have other : i ≠ f.accept := by
      have := builds.accept.1
      omega
    rw [state_addToken small, if_neg other, builds.state i old]
  case start => simpa [size_addToken] using builds.start
  case accept => simpa [size_addToken] using builds.accept
  case starts => rw [addToken, builds.starts]
  case accepts =>
    intro i a
    rw [state_addToken small]
    by_cases here : i = f.accept
    · have none : (nfa.state i).accept = none := by
        rw [state_of_le (here ▸ builds.accept.1)]
      simp [here ▸ none, here, eq_comm]
    · rw [if_neg here]
      by_cases old : i < nfa.states.size
      · simp [builds.state i old, here]
      · simp [builds.idle i (Nat.le_of_not_lt old), state_of_le (Nat.le_of_not_lt old), here]
  case path_iff => exact ⟨p, parsed, fun w => (path_addToken_iff small).trans (builds.path_iff w)⟩

end Lalr.Lexer.Nfa
