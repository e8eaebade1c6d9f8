import Lalr.Grammar.Basic
import Mathlib.Logic.Relation

/-! Derivations of sentential forms, and what they say of the empty form and of first
terminals. `Derives` rewrites nonterminals one after another in any order. `Expands` rewrites
each symbol of a form on its own; inductions follow it. -/
namespace Lalr.Grammar

open Relation

/-- One nonterminal is replaced by the right-hand side of one of its rules. -/
inductive Produces (g : Grammar) : List Symbol → List Symbol → Prop where
  | rewrite {rule : Rule} (front back : List Symbol) (member : rule ∈ g.rules.values) :
      Produces g (front ++ .nonterminal rule.left :: back)
        (front ++ rule.right.toList ++ back)

def Derives (g : Grammar) : List Symbol → List Symbol → Prop := ReflTransGen g.Produces

/-- Derivations in which each symbol is kept or expanded by itself, from left to right. -/
inductive Expands (g : Grammar) : List Symbol → List Symbol → Prop where
  | nil : Expands g [] []
  | keep (X : Symbol) : Expands g α β → Expands g (X :: α) (X :: β)
  | expand {rule : Rule} : rule ∈ g.rules.values → Expands g rule.right.toList β →
      Expands g α γ → Expands g (.nonterminal rule.left :: α) (β ++ γ)

def Nullable (g : Grammar) (α : List Symbol) : Prop := g.Derives α []

def First (g : Grammar) (α : List Symbol) (t : TerminalId) : Prop :=
  ∃ δ, g.Derives α (.terminal t :: δ)

variable {g : Grammar} {α β γ δ : List Symbol} {n : NonterminalId} {t : TerminalId}

theorem Produces.context (step : g.Produces α β) (front back : List Symbol) :
    g.Produces (front ++ α ++ back) (front ++ β ++ back) := by
  cases step with
  | rewrite front' back' member =>
    simpa using Produces.rewrite (front ++ front') (back' ++ back) member

theorem Derives.context (h : g.Derives α β) (front back : List Symbol) :
    g.Derives (front ++ α ++ back) (front ++ β ++ back) := by
  induction h with
  | refl => exact .refl
  | tail _ step ih => exact ih.tail (step.context front back)

theorem Derives.append (first : g.Derives α β) (second : g.Derives γ δ) :
    g.Derives (α ++ γ) (β ++ δ) := by
  have left : g.Derives (α ++ γ) (β ++ γ) := by simpa using first.context [] γ
  have right : g.Derives (β ++ γ) (β ++ δ) := by simpa using second.context β []
  exact left.trans right

theorem derives_of_rule {rule : Rule} (member : rule ∈ g.rules.values) :
    g.Derives [.nonterminal rule.left] rule.right.toList := by
  have step : g.Produces [.nonterminal rule.left] rule.right.toList := by
    simpa using Produces.rewrite (g := g) [] [] member
  exact .single step

theorem Expands.refl (g : Grammar) (α : List Symbol) : g.Expands α α := by
  induction α with
  | nil => exact .nil
  | cons X _ ih => exact .keep X ih

theorem Expands.append (first : g.Expands α β) (second : g.Expands γ δ) :
    g.Expands (α ++ γ) (β ++ δ) := by
  induction first with
  | nil => exact second
  | keep X _ ih => exact .keep X ih
  | expand member right _ _ ih => simpa using Expands.expand member right ih

theorem Expands.split (h : g.Expands (α ++ β) γ) :
    ∃ γ₁ γ₂, γ = γ₁ ++ γ₂ ∧ g.Expands α γ₁ ∧ g.Expands β γ₂ := by
  induction α generalizing γ with
  | nil => exact ⟨[], γ, rfl, .nil, h⟩
  | cons X α ih =>
    cases h with
    | keep _ rest =>
      obtain ⟨γ₁, γ₂, rfl, first, second⟩ := ih rest
      exact ⟨X :: γ₁, γ₂, rfl, .keep X first, second⟩
    | expand member right rest =>
      obtain ⟨γ₁, γ₂, rfl, first, second⟩ := ih rest
      exact ⟨_, γ₂, (List.append_assoc ..).symm, .expand member right first, second⟩

theorem Produces.expands (step : g.Produces α β) (h : g.Expands β γ) : g.Expands α γ := by
  cases step with
  | rewrite front back member =>
    obtain ⟨_, γ₃, rfl, h, last⟩ := h.split
    obtain ⟨γ₁, γ₂, rfl, first, middle⟩ := h.split
    simpa using first.append (.expand member middle last)

/-- Both notions of derivation agree. -/
theorem derives_iff_expands : g.Derives α β ↔ g.Expands α β := by
  constructor
  · intro h
    induction h using ReflTransGen.head_induction_on with
    | refl => exact .refl g β
    | head step _ ih => exact step.expands ih
  · intro h
    induction h with
    | nil => exact .refl
    | keep X _ ih => exact Derives.append (α := [X]) .refl ih
    | expand member _ _ right rest =>
      exact Derives.append (α := [_]) ((derives_of_rule member).trans right) rest

theorem nullable_nil : g.Nullable [] := .refl

theorem Nullable.append (first : g.Nullable α) (second : g.Nullable β) :
    g.Nullable (α ++ β) := Derives.append first second

theorem nullable_append_iff : g.Nullable (α ++ β) ↔ g.Nullable α ∧ g.Nullable β := by
  refine ⟨fun h => ?_, fun h => h.1.append h.2⟩
  obtain ⟨γ₁, γ₂, eq, first, second⟩ := (derives_iff_expands.1 h).split
  obtain ⟨rfl, rfl⟩ := List.append_eq_nil_iff.1 eq.symm
  exact ⟨derives_iff_expands.2 first, derives_iff_expands.2 second⟩

theorem nullable_cons_iff {X : Symbol} :
    g.Nullable (X :: α) ↔ g.Nullable [X] ∧ g.Nullable α := nullable_append_iff (α := [X])

theorem not_nullable_terminal : ¬ g.Nullable [.terminal t] := by
  intro h
  cases derives_iff_expands.1 h

theorem nullable_iff_forall : g.Nullable α ↔ ∀ X ∈ α, g.Nullable [X] := by
  induction α with
  | nil => simp [nullable_nil]
  | cons X α ih => rw [nullable_cons_iff, ih, List.forall_mem_cons]

theorem nullable_of_rule {rule : Rule} (member : rule ∈ g.rules.values)
    (right : g.Nullable rule.right.toList) : g.Nullable [.nonterminal rule.left] :=
  (derives_of_rule member).trans right

/-- What holds of the left-hand side of each rule whose right-hand side has it throughout,
holds of each nullable nonterminal. -/
theorem Nullable.induction {P : NonterminalId → Prop}
    (rules : ∀ rule ∈ g.rules.values, (∀ X ∈ rule.right.toList, ∃ m, X = .nonterminal m ∧ P m) →
      P rule.left) (h : g.Nullable [.nonterminal n]) : P n := by
  have all {α β : List Symbol} (h : g.Expands α β) :
      β = [] → ∀ X ∈ α, ∃ m, X = .nonterminal m ∧ P m := by
    induction h with
    | nil => simp
    | keep => simp
    | expand member _ _ right rest =>
      intro empty
      obtain ⟨first, second⟩ := List.append_eq_nil_iff.1 empty
      exact List.forall_mem_cons.2 ⟨⟨_, rfl, rules _ member (right first)⟩, rest second⟩
  obtain ⟨m, same, holds⟩ := all (derives_iff_expands.1 h) rfl _ (List.mem_singleton_self _)
  cases same
  exact holds

@[simp] theorem not_first_nil : ¬ g.First [] t := by
  rintro ⟨δ, h⟩
  cases derives_iff_expands.1 h

@[simp] theorem first_terminal {u : TerminalId} : g.First (.terminal u :: α) t ↔ t = u := by
  constructor
  · rintro ⟨δ, h⟩
    cases derives_iff_expands.1 h
    rfl
  · rintro rfl
    exact ⟨α, .refl⟩

theorem First.append (h : g.First α t) (β : List Symbol) : g.First (α ++ β) t := by
  obtain ⟨δ, h⟩ := h
  exact ⟨δ ++ β, h.append .refl⟩

theorem First.skip (empty : g.Nullable α) (h : g.First β t) : g.First (α ++ β) t := by
  obtain ⟨δ, h⟩ := h
  exact ⟨δ, Derives.append empty h⟩

theorem first_of_rule {rule : Rule} (member : rule ∈ g.rules.values)
    (right : g.First rule.right.toList t) : g.First [.nonterminal rule.left] t := by
  obtain ⟨δ, right⟩ := right
  exact ⟨δ, (derives_of_rule member).trans right⟩

theorem first_cons_iff {X : Symbol} :
    g.First (X :: α) t ↔ g.First [X] t ∨ g.Nullable [X] ∧ g.First α t := by
  constructor
  · rintro ⟨δ, h⟩
    obtain ⟨γ₁, γ₂, eq, first, second⟩ := Expands.split (α := [X]) (derives_iff_expands.1 h)
    cases γ₁ with
    | nil => exact .inr ⟨derives_iff_expands.2 first, δ, eq ▸ derives_iff_expands.2 second⟩
    | cons Y γ₁ =>
      obtain ⟨rfl, -⟩ := List.cons_eq_cons.1 eq
      exact .inl ⟨γ₁, derives_iff_expands.2 first⟩
  · rintro (h | ⟨empty, h⟩)
    · exact h.append α
    · exact h.skip empty

/-- What holds of a terminal and the left-hand side of each rule at whose front the terminal
stands, behind nullable symbols, or a nonterminal of which it holds, holds of all first
terminals. -/
theorem First.induction {P : NonterminalId → TerminalId → Prop}
    (terminals : ∀ rule ∈ g.rules.values, ∀ α β t,
      rule.right.toList = α ++ .terminal t :: β → g.Nullable α → P rule.left t)
    (nonterminals : ∀ rule ∈ g.rules.values, ∀ α β n t,
      rule.right.toList = α ++ .nonterminal n :: β → g.Nullable α → P n t → P rule.left t)
    (h : g.First [.nonterminal n] t) : P n t := by
  have split {α γ : List Symbol} (h : g.Expands α γ) : ∀ δ, γ = .terminal t :: δ →
      (∃ α₁ α₂, α = α₁ ++ .terminal t :: α₂ ∧ g.Nullable α₁) ∨
      ∃ α₁ α₂ m, α = α₁ ++ .nonterminal m :: α₂ ∧ g.Nullable α₁ ∧ P m t := by
    induction h with
    | nil => simp
    | keep X _ _ =>
      intro δ eq
      obtain ⟨rfl, -⟩ := List.cons_eq_cons.1 eq
      exact .inl ⟨[], _, rfl, nullable_nil⟩
    | @expand β α γ rule member right _ ihRight ihRest =>
      intro δ eq
      cases β with
      | nil =>
        have empty := nullable_of_rule member (derives_iff_expands.2 right)
        rcases ihRest δ eq with ⟨α₁, α₂, rfl, nullable⟩ | ⟨α₁, α₂, m, rfl, nullable, holds⟩
        · exact .inl ⟨_ :: α₁, α₂, rfl, nullable_cons_iff.2 ⟨empty, nullable⟩⟩
        · exact .inr ⟨_ :: α₁, α₂, m, rfl, nullable_cons_iff.2 ⟨empty, nullable⟩, holds⟩
      | cons Y β =>
        obtain ⟨rfl, -⟩ := List.cons_eq_cons.1 eq
        refine .inr ⟨[], α, rule.left, rfl, nullable_nil, ?_⟩
        rcases ihRight β rfl with ⟨α₁, α₂, split, nullable⟩ | ⟨α₁, α₂, m, split, nullable, holds⟩
        · exact terminals rule member α₁ α₂ t split nullable
        · exact nonterminals rule member α₁ α₂ m t split nullable holds
  obtain ⟨δ, h⟩ := h
  rcases split (derives_iff_expands.1 h) δ rfl with
    ⟨α₁, α₂, eq, -⟩ | ⟨α₁, α₂, m, eq, -, holds⟩
  · cases α₁ <;> simp at eq
  · cases α₁ with
    | nil =>
      simp only [List.nil_append, List.cons.injEq, Symbol.nonterminal.injEq] at eq
      exact eq.1 ▸ holds
    | cons => simp at eq

end Lalr.Grammar
