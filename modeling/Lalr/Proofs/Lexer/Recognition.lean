import Lalr.Pipeline
import Lalr.Proofs.Lexer.Minimal
import Lalr.Proofs.Lexer.Subset

/-! Longest match, then first declared: what the automata of token patterns find at the front of
an input. -/
namespace Lalr.Lexer

open Nfa

structure LongestWin (tokens : List TokenPattern) (input : List UInt8) (t : TerminalId) (l : Nat) :
    Prop where
  pos : 1 ≤ l
  le : l ≤ input.length
  wins : Wins tokens (input.take l) t
  longest : ∀ m, l < m → m ≤ input.length → ∀ k u, ¬ Matches tokens (input.take m) k u

/-- The automaton finds the longest matches of the tokens, and nothing where no token matches. -/
structure Dfa.Recognizes (d : Dfa) (tokens : List TokenPattern) : Prop where
  some_iff : ∀ input t l, d.longestMatch input = some (t, l) ↔ LongestWin tokens input t l
  none_iff : ∀ input, d.longestMatch input = none ↔
    ∀ m, 1 ≤ m → m ≤ input.length → ∀ k u, ¬ Matches tokens (input.take m) k u

variable {d : Dfa} {tokens : List TokenPattern}

/-- An automaton that accepts the winning tokens recognizes them. -/
theorem recognizes_of_token (accepts : ∀ w t, d.token 0 w = some t ↔ Wins tokens w t) :
    d.Recognizes tokens := by
  have rejects (w : List UInt8) : d.token 0 w = none ↔ ∀ k u, ¬ Matches tokens w k u := by
    constructor
    · intro rejected k u matched
      obtain ⟨t, wins⟩ := matched.exists_wins
      rw [← accepts, rejected] at wins
      cases wins
    · intro unmatched
      apply Option.eq_none_iff_forall_ne_some.2
      intro t accepted
      obtain ⟨k, u, matched, -⟩ := (accepts w t).1 accepted
      exact unmatched k u matched
  constructor
  case some_iff =>
    intro input t l
    rw [Dfa.longestMatch_eq_some_iff]
    constructor
    · intro h
      refine ⟨h.pos, h.le, (accepts _ t).1 h.accepted, fun m less le => ?_⟩
      exact (rejects _).1 (h.longest m less le)
    · intro h
      refine ⟨h.pos, h.le, (accepts _ t).2 h.wins, fun m less le => ?_⟩
      exact (rejects _).2 (h.longest m less le)
  case none_iff =>
    intro input
    rw [Dfa.longestMatch_eq_none_iff]
    exact forall_congr' fun m => forall_congr' fun _ => forall_congr' fun _ => rejects _

/-- The subset construction gives every byte a class and every transition a target. -/
theorem toDfa_proper (tokens : List TokenPattern) : (ofTokens tokens).toDfa.Proper := by
  obtain ⟨entries, holds⟩ := exists_holds tokens
  exact ⟨ByteClasses.get_mem_toList _,
    fun i k j leads => (transition_toDfa holds.bounded holds.start_lt leads).2⟩

theorem recognizes_toDfa (tokens : List TokenPattern) :
    (ofTokens tokens).toDfa.Recognizes tokens :=
  recognizes_of_token fun _ _ => token_toDfa

theorem recognizes_minimize (tokens : List TokenPattern) :
    (ofTokens tokens).toDfa.minimize.Recognizes tokens := by
  apply recognizes_of_token
  intro w t
  simp only [Dfa.token_minimize (toDfa_proper tokens), token_toDfa]

/-- The automaton of the subset construction and the minimal one find the longest match, and of
several tokens that match it the one of least priority that is declared first. -/
theorem tokens_recognized (tokens : List TokenPattern) :
    (ofTokens tokens).toDfa.Recognizes tokens ∧
      (ofTokens tokens).toDfa.minimize.Recognizes tokens :=
  ⟨recognizes_toDfa tokens, recognizes_minimize tokens⟩

/-- The lexer of a grammar is made from its tokens. -/
theorem lexerNfa_eq_ofTokens (g : Grammar) : (lexerNfa g).1 = ofTokens g.tokens := by
  refine (List.foldl_hom Prod.fst fun (nfa, report) t => ?_).symm
  dsimp only
  cases nfa.compile t with
  | error e => rfl
  | ok result => rfl

theorem recognizes_of_addLexer {o : Output} {g : Grammar} {minimize : Bool}
    (fresh : o.dfa = none) (result : (o.addLexer g minimize).dfa = some d) :
    d.Recognizes g.tokens := by
  rw [Output.addLexer, ← Prod.eta (lexerNfa g), lexerNfa_eq_ofTokens] at result
  dsimp only at result
  split at result
  · cases fresh.symm.trans result
  · split at result
    · cases result
      exact recognizes_minimize g.tokens
    · cases result
      exact recognizes_toDfa g.tokens

/-- A run that yields a lexer yields one that recognizes the tokens of the grammar. -/
theorem recognizes_of_generate {g : Grammar} {minimize : Bool}
    (result : (generate g minimize).dfa = some d) : d.Recognizes g.tokens := by
  rw [generate] at result
  dsimp only at result
  split at result
  · cases result
  · split at result
    · cases result
    · split at result
      · cases result
      · exact recognizes_of_addLexer rfl result

end Lalr.Lexer
