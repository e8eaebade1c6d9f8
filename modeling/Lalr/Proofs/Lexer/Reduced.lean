import Lalr.Proofs.Lexer.Live
import Lalr.Proofs.Lexer.Quotient
import Lalr.Proofs.Lexer.Recognition
import Lalr.Proofs.Lexer.Simulation
import Mathlib.Data.Fintype.Card

/-! Lexers without a state to spare. Every state of the automaton of some tokens can be entered, can
still lead to a token, and after minimization is told apart from the others by a word. No automaton
that assigns the same tokens has fewer states. -/
namespace Lalr.Lexer

/-- Deterministic automata over bytes with states of any kind. A missing transition ends a run. -/
structure ByteAutomaton (σ : Type) where
  start : σ
  next : σ → UInt8 → Option σ
  accept : σ → Option TerminalId

namespace ByteAutomaton

variable {σ : Type} {M : ByteAutomaton σ} {u v : List UInt8} {s : σ}

def run (M : ByteAutomaton σ) (s : σ) : List UInt8 → Option σ
  | [] => some s
  | b :: rest => (M.next s b).bind fun s' => M.run s' rest

def token (M : ByteAutomaton σ) (w : List UInt8) : Option TerminalId := (M.run M.start w).bind M.accept

theorem run_append : M.run s (u ++ v) = (M.run s u).bind fun s' => M.run s' v := by
  induction u generalizing s with
  | nil => rfl
  | cons b rest ih => simp [run, ih, Option.bind_assoc]

end ByteAutomaton

namespace Dfa

variable {d q : Dfa} {i j k : Nat} {u v : List UInt8} {w : List Nat} {number : Nat → Nat}

/-- There is nothing to leave out and nothing to merge. -/
structure Reduced (d : Dfa) : Prop where
  reachable : ∀ i < d.states.size, ∃ w, d.run 0 w = some i
  live : ∀ i < d.states.size, ∃ w t, d.token i w = some t
  apart : ∀ i < d.states.size, ∀ j < d.states.size, i ≠ j → ∃ w, d.token i w ≠ d.token j w

/-- Another automaton for the same tokens has a state for each state of a reduced one: where a word
leads that leads there. -/
theorem Reduced.size_le {σ : Type} [Fintype σ] (h : d.Reduced) (M : ByteAutomaton σ)
    (same : ∀ w, M.token w = d.token 0 w) : d.states.size ≤ Fintype.card σ := by
  choose word leads using h.reachable
  -- The other automaton is not stuck behind the word of a state: a token is still ahead.
  have continues (i : Nat) (small : i < d.states.size) :
      ∃ s, M.run M.start (word i small) = some s ∧
        ∀ v, d.token i v = (M.run s v).bind M.accept := by
    have behind (v : List UInt8) : M.token (word i small ++ v) = d.token i v := by
      rw [same, token_append, leads, Option.bind_some]
    cases there : M.run M.start (word i small) with
    | none =>
      obtain ⟨v, t, accepts⟩ := h.live i small
      have stuck := behind v
      rw [ByteAutomaton.token, ByteAutomaton.run_append, there, accepts] at stuck
      cases stuck
    | some s =>
      refine ⟨s, rfl, fun v => ?_⟩
      rw [← behind, ByteAutomaton.token, ByteAutomaton.run_append, there, Option.bind_some]
  choose state _ token using continues
  rw [← Fintype.card_fin d.states.size]
  refine Fintype.card_le_of_injective (fun i : Fin d.states.size => state i i.2) fun i j eq => ?_
  by_contra other
  obtain ⟨v, differ⟩ := h.apart i i.2 j j.2 fun eq => other (Fin.ext eq)
  dsimp only at eq
  rw [token i i.2, token j j.2, eq] at differ
  exact differ rfl

def Readable (d : Dfa) : Prop :=
  ∀ i k j, (d.state i).transitions.get? k = some j → ∃ b, d.classes.get b = k

theorem Readable.exists_bytes (h : d.Readable) (leads : d.follow i w = some j) :
    ∃ bytes : List UInt8, bytes.map d.classes.get = w := by
  induction w generalizing i with
  | nil => exact ⟨[], rfl⟩
  | cons k rest ih =>
    obtain ⟨l, first, others⟩ := Option.bind_eq_some_iff.1 leads
    obtain ⟨b, rfl⟩ := h i k l first
    obtain ⟨bytes, rfl⟩ := ih others
    exact ⟨b :: bytes, rfl⟩

theorem follow_lt (closed : d.Closed) (small : i < d.states.size) (leads : d.follow i w = some j) :
    j < d.states.size := by
  induction w generalizing i with
  | nil =>
    cases leads
    exact small
  | cons k rest ih =>
    obtain ⟨l, first, others⟩ := Option.bind_eq_some_iff.1 leads
    exact ih (closed.targets i k l first) others

section Tokens

variable (readable : d.Readable) (closed : d.Closed)
  (live : ∀ i < d.states.size, ∃ w t, d.token i w = some t)

include readable closed live

/-- A word of classes that leads somewhere leads somewhere from a state with the same tokens. -/
theorem exists_follow_of_token (small : i < d.states.size)
    (same : ∀ v, d.token i v = d.token j v) {i' : Nat} (leads : d.follow i w = some i') :
    ∃ j', d.follow j w = some j' ∧ (d.state i').accept = (d.state j').accept := by
  obtain ⟨v, t, accepts⟩ := live i' (follow_lt closed small leads)
  obtain ⟨bytes, rfl⟩ := readable.exists_bytes leads
  rw [← run_eq_follow] at leads ⊢
  have later : d.token j (bytes ++ v) = some t := by
    rw [← same, token_append, leads, Option.bind_some, accepts]
  rw [token_append] at later
  obtain ⟨j', leads', -⟩ := Option.bind_eq_some_iff.1 later
  refine ⟨j', leads', ?_⟩
  have here := same bytes
  rwa [token, token, leads, leads', Option.bind_some, Option.bind_some] at here

/-- States with the same tokens are equivalent: where one has a transition the other has one too. -/
theorem equivalent_of_token (small : i < d.states.size) (small' : j < d.states.size)
    (same : ∀ v, d.token i v = d.token j v) : d.Equivalent i j := by
  intro w _
  rw [outcome, outcome]
  cases leads : d.follow i w with
  | some i' =>
    obtain ⟨j', leads', accept⟩ := exists_follow_of_token readable closed live small same leads
    rw [leads', Option.map_some, Option.map_some, accept]
  | none =>
    cases leads' : d.follow j w with
    | none => rfl
    | some j' =>
      obtain ⟨i', there, -⟩ :=
        exists_follow_of_token readable closed live small' (fun v => (same v).symm) leads'
      cases leads.symm.trans there

end Tokens

namespace IsQuotient

variable (h : d.IsQuotient q number) (closed : d.Closed)

include h

theorem readable (readable : d.Readable) : q.Readable := by
  intro p k r leads
  obtain ⟨i, j, leads', -⟩ := h.exists_origin leads
  rw [h.classes]
  exact readable i k j leads'

include closed

/-- A run goes along the classes of states. -/
theorem run_eq (small : i < d.states.size) :
    q.run (number i) u = (d.run i u).map number := by
  induction u generalizing i with
  | nil => rfl
  | cons b rest ih =>
    rw [Dfa.run, Dfa.run, next, next, h.classes, h.transitions i small]
    cases leads : (d.state i).transitions.get? (d.classes.get b) with
    | none => rfl
    | some j => exact ih (closed.targets i _ j leads)

theorem token_eq (small : i < d.states.size) : q.token (number i) u = d.token i u := by
  rw [token_eq_join, token_eq_join, h.map_accept_run closed small]

theorem reduced (readable : d.Readable) (reachable : ∀ i < d.states.size, ∃ w, d.run 0 w = some i)
    (live : ∀ i < d.states.size, ∃ w t, d.token i w = some t) : q.Reduced := by
  have live' : ∀ p < q.states.size, ∃ w t, q.token p w = some t := by
    intro p small
    obtain ⟨i, inside, rfl⟩ := h.onto p small
    obtain ⟨w, t, accepts⟩ := live i inside
    exact ⟨w, t, (h.token_eq closed inside).trans accepts⟩
  refine ⟨fun p small => ?_, live', fun p small p' small' other => ?_⟩
  · obtain ⟨i, inside, rfl⟩ := h.onto p small
    obtain ⟨w, leads⟩ := reachable i inside
    have first := h.run_eq closed (u := w) (Nat.lt_of_le_of_lt (Nat.zero_le i) inside)
    rw [h.start, leads] at first
    exact ⟨w, first⟩
  · by_contra same
    push Not at same
    exact other (h.eq_of_equivalent closed small small'
      (equivalent_of_token (h.readable readable) (h.closed closed) live' small small' same))

end IsQuotient

end Dfa

namespace Nfa

variable {nfa : Nfa} {i : Nat} {tokens : List TokenPattern}

theorem toDfa_closed (bounded : nfa.Bounded) (places : ∀ i ∈ nfa.starts, i < nfa.states.size) :
    nfa.toDfa.Closed where
  keys i k j leads := by
    obtain ⟨⟨b, rfl⟩, -⟩ := transition_toDfa bounded places leads
    exact ByteClasses.get_mem_toList nfa b
  targets i k j leads := (transition_toDfa bounded places leads).2

theorem toDfa_readable (bounded : nfa.Bounded) (places : ∀ i ∈ nfa.starts, i < nfa.states.size) :
    nfa.toDfa.Readable := fun _ _ _ leads => (transition_toDfa bounded places leads).1

/-- A state of the subset construction stands for some states, and these lead to tokens. -/
theorem toDfa_live (compiles : ∃ t ∈ tokens, ∃ p, Pattern.parse t.pattern = .ok p)
    (small : i < (ofTokens tokens).toDfa.states.size) :
    ∃ w t, (ofTokens tokens).toDfa.token i w = some t := by
  obtain ⟨entries, holds⟩ := exists_holds tokens
  obtain ⟨u, leads⟩ := exists_run_toDfa holds.bounded holds.start_lt small
  have reads : ∃ j, (ofTokens tokens).Reads u j := by
    by_cases nonempty : u = []
    · obtain ⟨t, member, p, parsed⟩ := compiles
      obtain ⟨k, listed⟩ := List.getElem?_of_mem member
      obtain ⟨e, inEntries, -⟩ := (holds.listed k t p).1 ⟨listed, parsed⟩
      refine ⟨e.fragment.start, e.fragment.start, ?_, nonempty ▸ .refl _⟩
      rw [holds.starts]
      exact List.mem_map_of_mem inEntries
    · rw [← isSome_run_toDfa_iff holds.bounded holds.start_lt nonempty, leads]
      rfl
  obtain ⟨j, s, start, path⟩ := reads
  have inside := path.lt holds.bounded (holds.start_lt s start)
  obtain ⟨w, j', a, path', accepts⟩ := exists_path_accept tokens j inside
  obtain ⟨e, inEntries, -, -, inLanguage⟩ :=
    holds.path_iff.1 ⟨⟨s, start, path.trans path'⟩, accepts⟩
  obtain ⟨t, wins⟩ := (holds.matches_iff.2 ⟨e, inEntries, rfl, rfl, inLanguage⟩).exists_wins
  have accepted := token_toDfa.2 wins
  rw [Dfa.token_append, leads, Option.bind_some] at accepted
  exact ⟨w, t, accepted⟩

end Nfa

open Nfa

/-- If any of the tokens compiles, every state of their automaton can lead to a token, and the
minimal automaton is reduced, so that no automaton that assigns the same tokens is smaller. -/
theorem minimize_reduced (tokens : List TokenPattern)
    (compiles : ∃ t ∈ tokens, ∃ p, Pattern.parse t.pattern = .ok p) :
    (∀ i < (ofTokens tokens).toDfa.states.size, ∃ w t, (ofTokens tokens).toDfa.token i w = some t) ∧
      (ofTokens tokens).toDfa.minimize.Reduced ∧
      ∀ (σ : Type) [Fintype σ] (M : ByteAutomaton σ),
        (∀ w, M.token w = (ofTokens tokens).toDfa.minimize.token 0 w) →
          (ofTokens tokens).toDfa.minimize.states.size ≤ Fintype.card σ := by
  obtain ⟨entries, holds⟩ := exists_holds tokens
  have closed := toDfa_closed holds.bounded holds.start_lt
  obtain ⟨number, quotient⟩ := Dfa.exists_isQuotient closed
  have live i (small : i < (ofTokens tokens).toDfa.states.size) := toDfa_live compiles small
  have reduced : (ofTokens tokens).toDfa.minimize.Reduced :=
    quotient.reduced closed (toDfa_readable holds.bounded holds.start_lt)
      (fun i small => exists_run_toDfa holds.bounded holds.start_lt small) live
  exact ⟨live, reduced, fun σ _ M same => reduced.size_le M same⟩

/-- A keyword before names. The third pattern is not well formed. -/
def keywords : List TokenPattern := [⟨⟨3⟩, "if", 0⟩, ⟨⟨4⟩, "[a-z]+", 1⟩, ⟨⟨5⟩, "(", 2⟩]

theorem parse_if : Pattern.parse "if" = .ok (.cat [.byte 105, .byte 102]) := by
  have plain (c : Char) (other : c ∉ Spelling.special) : Spelling.Repeated [c] (.literal c) :=
    .atom (.leaf (.plain other))
  exact Pattern.parse_of_spells
    ⟨_, .one (.more (.one (plain 'i' (by decide))) (plain 'f' (by decide))), rfl⟩

/-- The start, the keyword, its first letter, and the other names. -/
theorem minimize_reduced_keywords :
    (∃ t ∈ keywords, ∃ p, Pattern.parse t.pattern = .ok p) ∧
      (ofTokens keywords).toDfa.minimize.Reduced ∧
      (ofTokens keywords).toDfa.minimize.states.size = 4 ∧
      ∀ (n : Nat) (M : ByteAutomaton (Fin n)),
        (∀ w, M.token w = (ofTokens keywords).toDfa.minimize.token 0 w) → 4 ≤ n := by
  have compiles : ∃ t ∈ keywords, ∃ p, Pattern.parse t.pattern = .ok p :=
    ⟨_, .head _, _, parse_if⟩
  obtain ⟨-, reduced, least⟩ := minimize_reduced keywords compiles
  have size : (ofTokens keywords).toDfa.minimize.states.size = 4 := by decide +kernel
  refine ⟨compiles, reduced, size, fun n M same => ?_⟩
  simpa [size] using least (Fin n) M same

end Lalr.Lexer
