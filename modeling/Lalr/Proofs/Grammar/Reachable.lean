import Lalr.Proofs.Grammar.Derivation
import Lalr.Proofs.Grammar.WellFormed

/-! Nonterminals that the start symbol leads to, and nonterminals that derive terminals only.
Where all of the former are among the latter, a form of the start symbol can be completed to a
sentence. -/
namespace Lalr.Grammar

/-- The start symbol, and what stands in the rules of what is reachable. -/
inductive Reachable (g : Grammar) : NonterminalId → Prop where
  | start : g.start = some n → Reachable g n
  | right {rule : Rule} : Reachable g rule.left → rule ∈ g.rules.values →
      .nonterminal n ∈ rule.right.toList → Reachable g n

/-- Some string of terminals, possibly empty, can be derived. -/
def Productive (g : Grammar) (n : NonterminalId) : Prop :=
  ∃ w : List TerminalId, g.Derives [.nonterminal n] (w.map .terminal)

variable {g : Grammar} {α : List Symbol} {n m : NonterminalId}

/-- Nonterminals in forms of the start symbol are reachable. -/
theorem reachable_of_derives (start : g.start = some n) (h : g.Derives [.nonterminal n] α)
    (member : .nonterminal m ∈ α) : g.Reachable m := by
  induction h generalizing m with
  | refl =>
    simp only [List.mem_singleton, Symbol.nonterminal.injEq] at member
    exact member ▸ .start start
  | tail _ step ih =>
    cases step with
    | @rewrite rule front back inRules =>
      simp only [List.mem_append] at member
      rcases member with (inFront | inRight) | inBack
      · exact ih (by simp [inFront])
      · exact .right (ih (by simp)) inRules inRight
      · exact ih (by simp [inBack])

theorem Reachable.declared (wf : g.WellFormed) (h : g.Reachable n) :
    n ≠ .start ∧ n ∈ g.nonterminals.keys := by
  cases h with
  | start start => exact wf.start n start
  | right _ inRules inRight => exact wf.nonterminal _ inRules n inRight

/-- A form whose nonterminals are productive derives terminals only. -/
theorem exists_derives_terminals (productive : ∀ n, .nonterminal n ∈ α → g.Productive n) :
    ∃ w : List TerminalId, g.Derives α (w.map .terminal) := by
  induction α with
  | nil => exact ⟨[], .refl⟩
  | cons X α ih =>
    obtain ⟨v, rest⟩ := ih fun n member => productive n (List.mem_cons_of_mem _ member)
    cases X with
    | terminal t => exact ⟨t :: v, Derives.append (α := [_]) .refl rest⟩
    | nonterminal n =>
      obtain ⟨u, first⟩ := productive n List.mem_cons_self
      refine ⟨u ++ v, ?_⟩
      rw [List.map_append]
      exact Derives.append (α := [_]) first rest

end Lalr.Grammar
