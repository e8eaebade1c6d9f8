import Lalr.Grammar.Basic
import Lalr.Lexer.PatternParser
import Mathlib.Computability.Language

/-! The regular languages of token patterns, and which token a word belongs to when several
patterns match it. -/
namespace Lalr.Lexer

open Computability

namespace Pattern

mutual

def language : Pattern → Language UInt8
  | .bytes set => {w | ∃ b ∈ set, w = [b]}
  | .cat parts => sequenceLanguage parts
  | .alt branches => choiceLanguage branches
  | .star body => body.language∗
  | .plus body => body.language * body.language∗
  | .opt body => 1 + body.language

def sequenceLanguage : List Pattern → Language UInt8
  | [] => 1
  | p :: rest => p.language * sequenceLanguage rest

def choiceLanguage : List Pattern → Language UInt8
  | [] => 0
  | p :: rest => p.language + choiceLanguage rest

end

end Pattern

def Matches (tokens : List TokenPattern) (w : List UInt8) (k : Nat) (t : TokenPattern) : Prop :=
  tokens[k]? = some t ∧ ∃ p, Pattern.parse t.pattern = .ok p ∧ w ∈ p.language

/-- Of the tokens that match `w`, one of least priority, and of these the first, is one of
`terminal`. -/
def Wins (tokens : List TokenPattern) (w : List UInt8) (terminal : TerminalId) : Prop :=
  ∃ k t, Matches tokens w k t ∧ t.terminal = terminal ∧
    ∀ k' t', Matches tokens w k' t' → t.priority < t'.priority ∨
      t.priority = t'.priority ∧ k ≤ k'

variable {tokens : List TokenPattern} {w : List UInt8} {a b : TerminalId}

/-- No two terminals win. -/
theorem Wins.unique (first : Wins tokens w a) (second : Wins tokens w b) : a = b := by
  obtain ⟨k, t, matched, rfl, least⟩ := first
  obtain ⟨k', t', matched', rfl, least'⟩ := second
  have below := least k' t' matched'
  have below' := least' k t matched
  obtain rfl : k = k' := by omega
  rw [Option.some.inj (matched.1.symm.trans matched'.1)]

/-- A token wins every word that is matched. -/
theorem Matches.exists_wins {k : Nat} {t : TokenPattern} (h : Matches tokens w k t) :
    ∃ terminal, Wins tokens w terminal := by
  classical
  have matched : ∃ p, ∃ k t, Matches tokens w k t ∧ t.priority = p := ⟨_, k, t, h, rfl⟩
  have least : ∃ k t, Matches tokens w k t ∧ t.priority = Nat.find matched := Nat.find_spec matched
  obtain ⟨u, matches_u, priority⟩ := Nat.find_spec least
  refine ⟨u.terminal, _, u, matches_u, rfl, fun k' t' other => ?_⟩
  have le := Nat.find_min' matched ⟨k', t', other, rfl⟩
  rw [← priority] at le
  refine (Nat.lt_or_eq_of_le le).imp_right fun same => ⟨same, ?_⟩
  exact Nat.find_min' least ⟨t', other, same.symm.trans priority⟩

end Lalr.Lexer
