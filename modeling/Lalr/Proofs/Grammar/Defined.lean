import Lalr.Grammar.OfStatements
import Lalr.Proofs.Grammar.WellFormed
import Mathlib.Algebra.GroupWithZero.Nat

/-! Both ways of defining a grammar, step by step and by a grammar file, lead the builder
through successful steps, so that the grammar is well formed. -/
namespace Lalr

open Source

def Source.Statement.ruleCount : Statement → Nat
  | .rule _ productions => productions.length
  | _ => 0

/-- Grammars defined step by step or by a grammar file, with no more rules than there are
identifiers behind that of the accepting rule. -/
inductive Grammar.Defined : Grammar → Prop where
  | steps {steps : List Declaration} (defined : Grammar.define steps = .ok g)
      (few : (steps.map Declaration.ruleCount).sum < UInt16.size) : Defined g
  | file {text : String} {statements : List Statement}
      (parsed : Source.parse text = .ok statements) (defined : Grammar.ofText text = .ok g)
      (few : (statements.map Statement.ruleCount).sum < UInt16.size) : Defined g

/-- What each step of a successful fold leads to at its cost, the fold leads to at the sum of
the costs. -/
theorem foldlM_relation {f : σ → α → Except ε σ} (R : σ → Nat → σ → Prop) (cost : α → Nat)
    (refl : ∀ s, R s 0 s) (trans : ∀ s m t n u, R s m t → R t n u → R s (m + n) u)
    (step : ∀ s x t, f s x = .ok t → R s (cost x) t) {xs : List α} {s t : σ}
    (h : xs.foldlM f s = .ok t) : R s (xs.map cost).sum t := by
  induction xs generalizing s with
  | nil => cases h; exact refl _
  | cons x rest ih =>
    rw [List.foldlM_cons] at h
    obtain ⟨u, first, others⟩ := bind_eq_ok h
    rw [List.map_cons, List.sum_cons]
    exact trans _ _ _ _ _ (step _ _ _ first) (ih others)

theorem Builder.leads_of_foldlM {b b' : Builder} {steps : List Declaration}
    (h : steps.foldlM attempt b = .ok b') :
    b.Leads (steps.map Declaration.ruleCount).sum b' := by
  refine foldlM_relation Leads Declaration.ruleCount (fun _ => .refl)
    (fun _ _ _ _ _ => .trans) (fun b d b' declared => ?_) h
  obtain ⟨x, declared⟩ := attempt_eq_ok declared
  exact .single declared

namespace Scope

def Leads (s : Scope) (n : Nat) (s' : Scope) : Prop := s.builder.Leads n s'.builder

variable {s s' : Scope}

theorem Leads.refl : s.Leads 0 s := Builder.Leads.refl

theorem Leads.trans {s'' : Scope} (first : s.Leads m s') (second : s'.Leads n s'') :
    s.Leads (m + n) s'' := Builder.Leads.trans first second

/-- A fold whose steps declare no rules. -/
theorem foldlM_leads {f : Scope → α → Except LoweringError Scope}
    (step : ∀ s x s', f s x = .ok s' → s.Leads 0 s') {xs : List α}
    (h : xs.foldlM f s = .ok s') : s.Leads 0 s' := by
  have path := foldlM_relation Leads (fun _ => 0) (fun _ => .refl)
    (fun _ _ _ _ _ => .trans) step h
  rwa [List.map_const', List.sum_replicate_nat, Nat.mul_zero] at path

theorem build_eq_ok {operation : Building α} {a : α} (h : s.build operation = .ok (a, s')) :
    ∃ b, s.builder.call operation = (.ok a, b) ∧ s' = { s with builder := b } := by
  unfold build at h
  split at h
  · next b done =>
    cases h
    exact ⟨b, done, rfl⟩
  · cases h

theorem perform_eq_ok {operation : Building Unit} (h : s.perform operation = .ok s') :
    ∃ b, s.builder.call operation = (.ok (), b) ∧ s' = { s with builder := b } := by
  obtain ⟨⟨⟨⟩, s''⟩, done, rfl⟩ := map_eq_ok h
  exact build_eq_ok done

/-- An operation on the builder that some declaration asks for. -/
theorem build_leads {d : Declaration} {operation : Building α} {f : α → Declared} {a : α}
    (asks : Building.declare d = f <$> operation) (h : s.build operation = .ok (a, s')) :
    s.Leads d.ruleCount s' := by
  obtain ⟨b, done, rfl⟩ := build_eq_ok h
  have declared : s.builder.declare d = (.ok (f a), b) := by
    rw [Builder.declare, asks]
    exact Builder.call_map_of_ok done f
  exact Builder.Leads.single declared

theorem perform_leads {d : Declaration} {operation : Building Unit} {f : Unit → Declared}
    (asks : Building.declare d = f <$> operation) (h : s.perform operation = .ok s') :
    s.Leads d.ruleCount s' := by
  obtain ⟨⟨⟨⟩, s''⟩, done, rfl⟩ := map_eq_ok h
  exact build_leads asks done

theorem token_leads (h : s.perform (.token t p) = .ok s') : s.Leads 0 s' :=
  perform_leads (d := .token t p) rfl h

theorem terminalAction_leads (h : s.perform (.terminalAction t code) = .ok s') : s.Leads 0 s' :=
  perform_leads (d := .terminalAction t code) rfl h

theorem declareTerminal_leads (h : declareTerminal precedence s d = .ok s') : s.Leads 0 s' := by
  obtain ⟨⟨t, s₀⟩, declared, h⟩ := bind_eq_ok h
  have first : s.Leads 0 s₀ := build_leads (d := .terminal d.name precedence) rfl declared
  dsimp only at h
  -- Both parts of a definition are optional; without them the scope stays.
  cases pattern : d.pattern <;> cases action : d.action <;> rw [pattern, action] at h <;>
    obtain ⟨s₁, second, h⟩ := bind_eq_ok h <;> obtain ⟨s₂, third, h⟩ := bind_eq_ok h <;>
    cases h
  case none.none => cases second; cases third; exact first
  case none.some => cases second; exact first.trans (terminalAction_leads third)
  case some.none => cases third; exact first.trans (token_leads second)
  case some.some => exact (first.trans (token_leads second)).trans (terminalAction_leads third)

theorem declareNonterminal_leads (h : s.declareNonterminal name = .ok (n, s')) :
    s.Leads 0 s' := by
  obtain ⟨⟨m, s₁⟩, declared, h⟩ := bind_eq_ok h
  have path : s.Leads 0 s₁ := build_leads (d := .nonterminal name) rfl declared
  cases h
  exact path

theorem leftSide_leads (h : s.leftSide name = .ok (n, s')) : s.Leads 0 s' := by
  unfold leftSide at h
  split at h
  · cases h; exact .refl
  · split at h
    · cases h
    · exact declareNonterminal_leads h

theorem element_leads (h : s.element e = .ok (X, s')) : s.Leads 0 s' := by
  unfold element at h
  split at h
  · cases h; exact .refl
  · split at h
    · cases h; exact .refl
    · split at h
      · cases h; exact .refl
      · obtain ⟨⟨n, s''⟩, done, eq⟩ := map_eq_ok h
        cases eq
        exact declareNonterminal_leads done

theorem elements_leads (h : s.elements es = .ok (right, s')) : s.Leads 0 s' := by
  induction es generalizing s right with
  | nil => cases h; exact .refl
  | cons e rest ih =>
    obtain ⟨⟨X, s₁⟩, first, h⟩ := bind_eq_ok h
    obtain ⟨⟨Xs, s₂⟩, others, h⟩ := bind_eq_ok h
    cases h
    exact (element_leads first).trans (ih others)

theorem production_leads (h : production left s p = .ok s') : s.Leads 1 s' := by
  obtain ⟨precedence, -, h⟩ := bind_eq_ok h
  obtain ⟨⟨right, s₁⟩, first, h⟩ := bind_eq_ok h
  obtain ⟨⟨r, s₂⟩, second, h⟩ := bind_eq_ok h
  have declared : s₁.Leads 1 s₂ := build_leads (d := .rule left right precedence) rfl second
  have both : s.Leads 1 s₂ := (elements_leads first).trans declared
  dsimp only at h
  split at h
  · next code _ => exact both.trans (perform_leads (d := .action r code) rfl h)
  · cases h; exact both

theorem statement_leads {st : Statement} (h : s.statement st = .ok s') :
    s.Leads st.ruleCount s' := by
  cases st with
  | prec settings name =>
    obtain ⟨assoc, -, h⟩ := bind_eq_ok h
    cases h; exact .refl
  | terminal settings definitions =>
    obtain ⟨precedence, -, h⟩ := bind_eq_ok h
    exact foldlM_leads (fun _ _ _ => declareTerminal_leads) h
  | whitespace patterns =>
    exact foldlM_leads (fun _ p _ => perform_leads (d := .whitespace p) rfl) h
  | nonterminal names =>
    refine foldlM_leads (fun s name s' h => ?_) h
    obtain ⟨⟨n, s''⟩, done, rfl⟩ := map_eq_ok h
    exact declareNonterminal_leads done
  | start name =>
    rw [statement] at h
    split at h
    · next n _ => exact perform_leads (d := .start n) rfl h
    · cases h
  | rule left productions =>
    obtain ⟨⟨n, s₁⟩, first, h⟩ := bind_eq_ok h
    have others := foldlM_relation Leads (fun _ => 1) (fun _ => .refl)
      (fun _ _ _ _ _ => .trans) (fun _ _ _ => production_leads) h
    rw [List.map_const', List.sum_replicate_nat, Nat.mul_one] at others
    simpa [Statement.ruleCount] using (leftSide_leads first).trans others
  | code kind text =>
    cases kind with
    | header => exact perform_leads (d := .header text) rfl h
    | footer => exact perform_leads (d := .footer text) rfl h

end Scope

/-- Grouping the statements changes their order only. -/
theorem ruleCount_grouped (statements : List Statement) :
    ((Statement.grouped statements).map Statement.ruleCount).sum =
      (statements.map Statement.ruleCount).sum := by
  induction statements with
  | nil => rfl
  | cons st rest ih =>
    simp only [Statement.grouped, List.range_succ, List.range_zero, List.nil_append,
      List.flatMap_append, List.flatMap_singleton, List.map_append, List.sum_append] at ih ⊢
    cases st <;> simp [Statement.group, Statement.ruleCount] at ih ⊢ <;> omega

theorem Grammar.leads_of_ofStatements {g : Grammar} {statements : List Statement}
    (lowered : Grammar.ofStatements statements = .ok g) :
    ∃ b, Builder.initial.Leads (statements.map Statement.ruleCount).sum b ∧ b.finish = g := by
  obtain ⟨s, done, rfl⟩ := map_eq_ok lowered
  have path := foldlM_relation Scope.Leads Statement.ruleCount
    (fun _ => .refl) (fun _ _ _ _ _ => .trans) (fun _ _ _ => Scope.statement_leads) done
  rw [ruleCount_grouped] at path
  exact ⟨s.builder, path, rfl⟩

/-- What a grammar file defines, its statements define. -/
theorem Grammar.exists_of_ofText {g : Grammar} {text : String}
    (defined : Grammar.ofText text = .ok g) :
    ∃ statements, Source.parse text = .ok statements ∧ Grammar.ofStatements statements = .ok g := by
  unfold Grammar.ofText at defined
  cases parsed : Source.parse text with
  | error e => rw [parsed] at defined; cases defined
  | ok statements =>
    rw [parsed] at defined
    dsimp only at defined
    cases lowered : Grammar.ofStatements statements with
    | error e => rw [lowered] at defined; cases defined
    | ok g' =>
      rw [lowered] at defined
      cases defined
      exact ⟨statements, rfl, lowered⟩

theorem Grammar.Defined.leads {g : Grammar} (h : g.Defined) :
    ∃ n b, Builder.initial.Leads n b ∧ n < UInt16.size ∧ b.finish = g := by
  cases h with
  | steps defined few =>
    obtain ⟨b, done, rfl⟩ := map_eq_ok defined
    exact ⟨_, b, Builder.leads_of_foldlM done, few, rfl⟩
  | @file text statements parsed defined few =>
    obtain ⟨statements', parsed', lowered⟩ := Grammar.exists_of_ofText defined
    cases parsed.symm.trans parsed'
    obtain ⟨b, path, finished⟩ := Grammar.leads_of_ofStatements lowered
    exact ⟨_, b, path, few, finished⟩

theorem Grammar.Defined.wellFormed {g : Grammar} (h : g.Defined) : g.WellFormed := by
  obtain ⟨n, b, path, few, rfl⟩ := h.leads
  exact Builder.finish_wellFormed (path.invariant Builder.initial_invariant (by simpa using few))

def pairRule : Rule := ⟨⟨1⟩, ⟨1⟩, #[.terminal ⟨3⟩, .nonterminal ⟨1⟩, .terminal ⟨4⟩], none, none⟩

def emptyRule : Rule := ⟨⟨2⟩, ⟨1⟩, #[], none, none⟩

def nestedPairs : List Declaration :=
  [.terminal "a" none, .terminal "b" none, .nonterminal "S",
    .rule ⟨1⟩ pairRule.right.toList none, .rule ⟨1⟩ [] none]

end Lalr
