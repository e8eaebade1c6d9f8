import Lalr.Proofs.Grammar.Written
import Mathlib.Data.List.Perm.Subperm

/-! Lowering keeps an account of what it has declared: the builder holds the declarations that the
statements ask for, and the names of the file stand for the symbols that the builder exports under
them. -/
namespace Lalr

open Source Declaration

namespace Declaration

variable {steps : List Declaration}

/-- So few declarations that identifiers are left for some more. -/
structure Modest (steps : List Declaration) : Prop where
  terminals : (steps.filterMap terminal?).length ≤ 65000
  nonterminals : (steps.filterMap nonterminal?).length ≤ 65000
  rules : (steps.filterMap rule?).length ≤ 65000

theorem Modest.few (h : Modest steps) (more : List Declaration) (short : more.length ≤ 3) :
    Few (steps ++ more) := by
  have terminals := List.length_filterMap_le terminal? more
  have nonterminals := List.length_filterMap_le nonterminal? more
  have rules := List.length_filterMap_le rule? more
  have := h.terminals
  have := h.nonterminals
  have := h.rules
  constructor <;> rw [List.filterMap_append, List.length_append] <;> omega

theorem filterMap_idle {f : Declaration → Option α} {d : Declaration} (none : f d = none) :
    (steps ++ [d]).filterMap f = steps.filterMap f := by
  rw [filterMap_concat, none]
  exact List.append_nil _

end Declaration

theorem forall₂_replace_last {R : α → β → Prop} {xs : List α} {ys : List β} {y y' : β}
    (h : List.Forall₂ R xs (ys ++ [y])) (same : ∀ x, R x y → R x y') :
    List.Forall₂ R xs (ys ++ [y']) := by
  induction ys generalizing xs with
  | nil =>
    cases h with
    | cons first rest => exact .cons (same _ first) rest
  | cons z ys ih =>
    cases h with
    | cons first rest => exact .cons first (ih rest)

theorem exists_of_forall₂ {R : α → β → Prop} {xs : List α} {ys : List β} {x : α}
    (h : List.Forall₂ R xs ys) (member : x ∈ xs) : ∃ y ∈ ys, R x y := by
  induction h with
  | nil => cases member
  | cons first _ ih =>
    rcases List.mem_cons.1 member with rfl | member
    · exact ⟨_, List.mem_cons_self .., first⟩
    · obtain ⟨y, inside, related⟩ := ih member
      exact ⟨y, List.mem_cons_of_mem _ inside, related⟩

theorem length_le_dedup {α : Type u} [DecidableEq α] {xs ys : List α} {n : Nat} (nodup : xs.Nodup)
    (sub : ∀ x ∈ xs, x ∈ ys) (few : ys.dedup.length ≤ n) : xs.length ≤ n :=
  Nat.le_trans (nodup.subperm fun x member => List.mem_dedup.2 (sub x member)).length_le few

/-- What statements ask for, kind by kind. -/
structure Written where
  terminals : List (List Setting × TerminalDefinition)
  patterns : List (Option String × String)
  rules : List (String × Production)
  starts : List String
  header : List String
  footer : List String

def written (statements : List Statement) : Written where
  terminals := writtenTerminals statements
  patterns := writtenPatterns statements
  rules := writtenRules statements
  starts := startNames statements
  header := writtenCode .header statements
  footer := writtenCode .footer statements

/-- The names under which entries are known go on being known with a new entry. -/
theorem OrderedMap.names_insert {κ : Type} {α : Type v} [DecidableEq κ]
    {names : OrderedMap String κ} {m : OrderedMap κ α} {exportName : α → Option String}
    {name : String} {k : κ} {a : α} (iff : ∀ name k, names.get? name = some k ↔
      (m.get? k).bind exportName = some name)
    (freshKey : k ∉ m.keys) (freshName : names.get? name = none)
    (exported : exportName a = some name) (name' : String) (k' : κ) :
    (names.insert name k).get? name' = some k' ↔
      ((m.insert k a).get? k').bind exportName = some name' := by
  have noKey := get?_eq_none_iff.2 freshKey
  rw [get?_insert, get?_insert]
  by_cases sameName : name' = name <;> by_cases sameKey : k' = k
  · simp [sameName, sameKey, exported]
  · rw [if_pos sameName, if_neg sameKey, sameName, ← iff, freshName]
    simp [Ne.symm sameKey]
  · rw [if_neg sameName, if_pos sameKey, iff, sameKey, noKey]
    simp [exported, Ne.symm sameName]
  · rw [if_neg sameName, if_neg sameKey, iff]

theorem OrderedMap.bind_get?_eq_none {κ : Type u} {α : Type v} [DecidableEq κ]
    {m : OrderedMap κ α} {f : α → Option β} {k : κ} (none : ∀ a ∈ m.values, f a = none) :
    (m.get? k).bind f = .none := by
  cases entry : m.get? k with
  | none => rfl
  | some a => exact none a (mem_values_iff.2 ⟨k, entry⟩)

namespace Scope

variable {s s' : Scope} {P : String → Option Precedence} {steps : List Declaration}
  {w : Written} {name : String} {precedence : Option Precedence}

def Means (s : Scope) (name : String) : Symbol → Prop
  | .terminal t => s.terminals.get? name = some t
  | .nonterminal n => s.nonterminals.get? name = some n

def ElementMeans (s : Scope) : Element → Symbol → Prop
  | .name name, X => s.Means name X
  | .error, X => X = .terminal .error

def PatternMeans (s : Scope) : Option String → TerminalId → Prop
  | some name, t => s.terminals.get? name = some t
  | none, t => t = .whitespace

/-- The sides and the precedence of a rule are what is written. -/
structure Stands (s : Scope) (P : String → Option Precedence)
    (rule : (NonterminalId × List Symbol) × Option Precedence)
    (alternative : String × Production) : Prop where
  left : s.nonterminals.get? alternative.1 = some rule.1.1
  right : List.Forall₂ s.ElementMeans alternative.2.elements rule.1.2
  precedence : (lastSetting "prec" alternative.2.settings).map P = rule.2.map some

structure Extends (s s' : Scope) : Prop where
  terminals : ∀ name t, s.terminals.get? name = some t → s'.terminals.get? name = some t
  nonterminals : ∀ name n, s.nonterminals.get? name = some n →
    s'.nonterminals.get? name = some n

theorem Extends.refl (s : Scope) : s.Extends s := ⟨fun _ _ => id, fun _ _ => id⟩

theorem Extends.rebuild (s : Scope) (b : Builder) : s.Extends { s with builder := b } :=
  ⟨fun _ _ => id, fun _ _ => id⟩

theorem Extends.trans {s'' : Scope} (first : s.Extends s') (second : s'.Extends s'') :
    s.Extends s'' where
  terminals name t known := second.terminals name t (first.terminals name t known)
  nonterminals name n known := second.nonterminals name n (first.nonterminals name n known)

theorem ElementMeans.mono (extends_ : s.Extends s') {e : Element} {X : Symbol}
    (means : s.ElementMeans e X) : s'.ElementMeans e X := by
  cases e with
  | error => exact means
  | name name =>
    cases X with
    | terminal t => exact extends_.terminals name t means
    | nonterminal n => exact extends_.nonterminals name n means

theorem PatternMeans.mono (extends_ : s.Extends s') {name : Option String} {t : TerminalId}
    (means : s.PatternMeans name t) : s'.PatternMeans name t := by
  cases name with
  | none => exact means
  | some name => exact extends_.terminals name t means

theorem Stands.mono (extends_ : s.Extends s')
    {rule : (NonterminalId × List Symbol) × Option Precedence}
    {alternative : String × Production} (stands : s.Stands P rule alternative) :
    s'.Stands P rule alternative where
  left := extends_.nonterminals _ _ stands.left
  right := stands.right.imp fun _ _ means => means.mono extends_
  precedence := stands.precedence

/-- These successful declarations are what is written. -/
structure Holds (P : String → Option Precedence) (s : Scope) (steps : List Declaration)
    (w : Written) : Prop where
  builder : s.builder.Holds steps
  precedences : ∀ name, s.precedences.get? name = P name
  terminals : (steps.filterMap terminal?).map (fun e => (e.1, e.2.map some)) =
    w.terminals.map fun e => (e.2.name, (lastSetting "prec" e.1).map P)
  terminal_actions : s.builder.terminals.values.map Terminal.action =
    List.replicate 3 none ++ w.terminals.map (·.2.action)
  patterns : List.Forall₂ (fun e f => s.PatternMeans f.1 e.1 ∧ f.2 = e.2)
    (steps.filterMap pattern?) w.patterns
  rules : List.Forall₂ (s.Stands P) (steps.filterMap rule?) w.rules
  rule_actions : s.builder.rules.values.map Rule.action = w.rules.map (·.2.action)
  start : s.builder.start.map some = w.starts.getLast?.map s.nonterminals.get?
  header : s.builder.header = w.header.getLast?
  footer : s.builder.footer = w.footer.getLast?
  terminal_keys : s.terminals.keys = w.terminals.map (·.2.name)
  nonterminal_keys : s.nonterminals.keys = steps.filterMap nonterminal?
  terminal_iff : ∀ name t, s.terminals.get? name = some t ↔
    (s.builder.terminals.get? t).bind Terminal.exportName = some name
  nonterminal_iff : ∀ name n, s.nonterminals.get? name = some n ↔
    (s.builder.nonterminals.get? n).bind Nonterminal.exportName = some name

theorem Holds.terminal_exported {t : TerminalId} (h : s.Holds P steps w)
    (known : s.terminals.get? name = some t) :
    name ∈ s.builder.terminals.values.filterMap Terminal.exportName := by
  obtain ⟨terminal, entry, named⟩ := Option.bind_eq_some_iff.1 ((h.terminal_iff name t).1 known)
  exact List.mem_filterMap.2 ⟨terminal, OrderedMap.mem_values_iff.2 ⟨t, entry⟩, named⟩

theorem Holds.nonterminal_exported {n : NonterminalId} (h : s.Holds P steps w)
    (known : s.nonterminals.get? name = some n) :
    name ∈ s.builder.nonterminals.values.filterMap Nonterminal.exportName := by
  obtain ⟨nonterminal, entry, named⟩ :=
    Option.bind_eq_some_iff.1 ((h.nonterminal_iff name n).1 known)
  exact List.mem_filterMap.2 ⟨nonterminal, OrderedMap.mem_values_iff.2 ⟨n, entry⟩, named⟩

theorem Holds.rules_rebuild (h : s.Holds P steps w) (b : Builder) :
    List.Forall₂ (Stands { s with builder := b } P) (steps.filterMap rule?) w.rules :=
  h.rules.imp fun _ _ stands => stands.mono (.rebuild s b)

/-- A name that the builder does not export stands for nothing. -/
theorem Holds.fresh (h : s.Holds P steps w) (fresh : name ∉ s.builder.exportNames) :
    s.terminals.get? name = none ∧ s.nonterminals.get? name = none := by
  constructor
  · exact Option.eq_none_iff_forall_ne_some.2 fun t known =>
      fresh (List.mem_append_left _ (h.terminal_exported known))
  · exact Option.eq_none_iff_forall_ne_some.2 fun n known =>
      fresh (List.mem_append_right _ (h.nonterminal_exported known))

/-- Nothing is both a terminal and a nonterminal. -/
theorem Holds.disjoint {t : TerminalId} {n : NonterminalId} (h : s.Holds P steps w)
    (terminal : s.terminals.get? name = some t)
    (nonterminal : s.nonterminals.get? name = some n) : False :=
  (List.nodup_append.1 h.builder.names).2.2 _ (h.terminal_exported terminal) _
    (h.nonterminal_exported nonterminal) rfl

section Declarations

variable {b : Builder} {t : TerminalId} {n : NonterminalId}

theorem Holds.extends_terminal (h : s.Holds P steps w) (fresh : name ∉ s.builder.exportNames)
    (b : Builder) (t : TerminalId) :
    s.Extends { s with builder := b, terminals := s.terminals.insert name t } := by
  refine ⟨fun name' t' known => ?_, fun _ _ => id⟩
  rw [OrderedMap.get?_insert, if_neg]
  · exact known
  · rintro rfl
    rw [(h.fresh fresh).1] at known
    cases known

theorem Holds.terminal (h : s.Holds P steps w) (modest : Modest steps) {settings : List Setting}
    (level : (lastSetting "prec" settings).map P = precedence.map some) (pattern : Option String)
    (declared : s.builder.call (.terminal name precedence) = (.ok t, b)) :
    Holds P { s with builder := b, terminals := s.terminals.insert name t }
      (steps ++ [.terminal name precedence])
      { w with terminals := w.terminals ++ [(settings, ⟨name, pattern, none⟩)] } := by
  have builder := h.builder.step (d := .terminal name precedence) (modest.few _ (by simp))
    (Builder.call_map_of_ok declared _)
  obtain ⟨fresh, rfl, rfl⟩ := Builder.terminal_cases declared
  obtain ⟨freshTerminal, -⟩ := h.fresh fresh
  have freshKey := h.builder.numbered.terminals.fresh
  have extends_ (b' : Builder) := h.extends_terminal fresh b' s.builder.nextTerminal
  constructor
  case builder => exact builder
  case precedences => exact h.precedences
  case terminals =>
    rw [filterMap_concat]
    simp [h.terminals, terminal?, level]
  case terminal_actions =>
    simp [h.builder.numbered.terminals.values_insert, h.terminal_actions]
  case patterns =>
    rw [filterMap_concat]
    simpa [pattern?] using h.patterns.imp fun _ _ both => ⟨both.1.mono (extends_ _), both.2⟩
  case rules =>
    rw [filterMap_concat]
    simpa [rule?] using h.rules.imp fun _ _ stands => stands.mono (extends_ _)
  case rule_actions => exact h.rule_actions
  case start => exact h.start
  case header => exact h.header
  case footer => exact h.footer
  case terminal_keys =>
    rw [OrderedMap.keys_insert, if_neg (OrderedMap.get?_eq_none_iff.1 freshTerminal),
      h.terminal_keys, List.map_append]
    rfl
  case nonterminal_keys =>
    rw [filterMap_concat]
    simpa [nonterminal?] using h.nonterminal_keys
  case terminal_iff => exact OrderedMap.names_insert h.terminal_iff freshKey freshTerminal rfl
  case nonterminal_iff => exact h.nonterminal_iff

theorem Holds.nonterminal (h : s.Holds P steps w) (modest : Modest steps)
    (declared : s.declareNonterminal name = .ok (n, s')) :
    s'.Holds P (steps ++ [.nonterminal name]) w ∧ s.Extends s' ∧
      s'.nonterminals.get? name = some n ∧ s'.nonterminals.keys = s.nonterminals.keys ++ [name] ∧
      s'.terminals = s.terminals ∧ name ∉ s.terminals.keys := by
  obtain ⟨⟨m, s₁⟩, first, declared⟩ := bind_eq_ok declared
  obtain ⟨b, done, rfl⟩ := build_eq_ok first
  have builder := h.builder.step (d := .nonterminal name) (modest.few _ (by simp))
    (Builder.call_map_of_ok done _)
  obtain ⟨fresh, rfl, rfl⟩ := Builder.nonterminal_cases done
  cases declared
  obtain ⟨freshTerminal, freshName⟩ := h.fresh fresh
  have freshKey := h.builder.numbered.nonterminals.fresh
  have extends_ : s.Extends { s with
      builder := { s.builder with
        nonterminals := s.builder.nonterminals.insert s.builder.nextNonterminal
          ⟨s.builder.nextNonterminal, some name⟩
        nextNonterminal := s.builder.nextNonterminal.next }
      nonterminals := s.nonterminals.insert name s.builder.nextNonterminal } := by
    refine ⟨fun _ _ => id, fun name' n' known => ?_⟩
    rw [OrderedMap.get?_insert, if_neg]
    · exact known
    · rintro rfl
      rw [freshName] at known
      cases known
  have keys : (s.nonterminals.insert name s.builder.nextNonterminal).keys =
      s.nonterminals.keys ++ [name] := by
    rw [OrderedMap.keys_insert, if_neg (OrderedMap.get?_eq_none_iff.1 freshName)]
  refine ⟨?_, extends_, by simp [OrderedMap.get?_insert], keys, rfl,
    OrderedMap.get?_eq_none_iff.1 freshTerminal⟩
  constructor
  case builder => exact builder
  case precedences => exact h.precedences
  case terminals =>
    rw [filterMap_concat]
    simpa [terminal?] using h.terminals
  case terminal_actions => exact h.terminal_actions
  case patterns =>
    rw [filterMap_concat]
    simpa [pattern?] using h.patterns.imp fun _ _ both => ⟨both.1.mono extends_, both.2⟩
  case rules =>
    rw [filterMap_concat]
    simpa [rule?] using h.rules.imp fun _ _ stands => stands.mono extends_
  case rule_actions => exact h.rule_actions
  case start =>
    have start := h.start
    cases given : w.starts.getLast? with
    | none => simpa [given] using start
    | some name' =>
      rw [given, Option.map_some] at start
      obtain ⟨m, start', known⟩ := Option.map_eq_some_iff.1 start
      change s.builder.start.map some = _
      rw [start', Option.map_some, Option.map_some, extends_.nonterminals _ _ known.symm]
  case header => exact h.header
  case footer => exact h.footer
  case terminal_keys => exact h.terminal_keys
  case nonterminal_keys =>
    rw [filterMap_concat, ← h.nonterminal_keys]
    exact keys
  case terminal_iff => exact h.terminal_iff
  case nonterminal_iff => exact OrderedMap.names_insert h.nonterminal_iff freshKey freshName rfl

theorem Holds.pattern {d : Declaration} {x : Declared} {name : Option String} {pattern : String}
    (h : s.Holds P steps w) (few : Few (steps ++ [d])) (declared : s.builder.declare d = (.ok x, b))
    (attached : d.pattern? = some (t, pattern)) (means : s.PatternMeans name t) :
    Holds P { s with builder := b } (steps ++ [d])
      { w with patterns := w.patterns ++ [(name, pattern)] } := by
  have builder := h.builder.step few declared
  have patterns : List.Forall₂ (fun e f => s.PatternMeans f.1 e.1 ∧ f.2 = e.2)
      ((steps ++ [d]).filterMap pattern?) (w.patterns ++ [(name, pattern)]) := by
    rw [filterMap_concat, attached]
    exact List.rel_append h.patterns (.cons ⟨means, rfl⟩ .nil)
  cases Builder.declare_steps declared with
  | token | whitespace =>
    exact { h with
      builder := builder
      terminals := by rw [filterMap_idle rfl]; exact h.terminals
      patterns := patterns
      rules := by rw [filterMap_idle rfl]; exact h.rules_rebuild _
      nonterminal_keys := by rw [filterMap_idle rfl]; exact h.nonterminal_keys }
  | _ => cases attached

theorem Holds.terminalAction {settings : List Setting} {d : TerminalDefinition} {code : String}
    {entries : List (TerminalId × Terminal)} {terminal : Terminal}
    {others : List (List Setting × TerminalDefinition)} (h : s.Holds P steps w)
    (few : Few (steps ++ [.terminalAction t code]))
    (last : w.terminals = others ++ [(settings, d)])
    (entry : s.builder.terminals.toList = entries ++ [(t, terminal)])
    (declared : s.builder.call (.terminalAction t code) = (.ok (), b)) :
    Holds P { s with builder := b } (steps ++ [.terminalAction t code])
      { w with terminals := others ++ [(settings, { d with action := some code })] } := by
  have builder := h.builder.step (d := .terminalAction t code) few
    (Builder.call_map_of_ok declared _)
  obtain ⟨old, known, rfl⟩ := Builder.terminalAction_cases declared
  have terminals := h.terminals
  have actions := h.terminal_actions
  have keys := h.terminal_keys
  rw [last] at terminals actions keys
  exact { h with
    builder := builder
    terminals := by
      rw [filterMap_idle rfl]
      simpa using terminals
    terminal_actions := by
      rw [OrderedMap.values, OrderedMap.toList_insert_last entry]
      rw [OrderedMap.values, entry] at actions
      simp only [List.map_append, List.map_cons, List.map_nil, ← List.append_assoc] at actions ⊢
      rw [(List.append_inj' actions rfl).1]
    patterns := by rw [filterMap_idle rfl]; exact h.patterns
    rules := by rw [filterMap_idle rfl]; exact h.rules_rebuild _
    terminal_keys := by simpa using keys
    nonterminal_keys := by rw [filterMap_idle rfl]; exact h.nonterminal_keys
    terminal_iff := fun name t' => by
      rw [OrderedMap.bind_get?_insert known]
      · exact h.terminal_iff name t'
      · rfl }

theorem Holds.rule {right : List Symbol} {left : String} {settings : List Setting}
    {elements : List Element} {r : RuleId} (h : s.Holds P steps w) (modest : Modest steps)
    (stands : s.Stands P ((n, right), precedence) (left, ⟨settings, elements, none⟩))
    (declared : s.builder.call (.rule n right precedence) = (.ok r, b)) :
    Holds P { s with builder := b } (steps ++ [.rule n right precedence])
      { w with rules := w.rules ++ [(left, ⟨settings, elements, none⟩)] } := by
  have builder := h.builder.step (d := .rule n right precedence) (modest.few _ (by simp))
    (Builder.call_map_of_ok declared _)
  obtain ⟨-, -, rfl, rfl⟩ := Builder.rule_cases declared
  exact { h with
    builder := builder
    terminals := by rw [filterMap_idle rfl]; exact h.terminals
    patterns := by rw [filterMap_idle rfl]; exact h.patterns
    rules := by
      rw [filterMap_concat]
      exact List.rel_append (h.rules_rebuild _) (.cons (stands.mono (.rebuild _ _)) .nil)
    rule_actions := by
      simp [h.builder.numbered.rules.values_insert, h.rule_actions]
    nonterminal_keys := by rw [filterMap_idle rfl]; exact h.nonterminal_keys }

theorem Holds.action {left : String} {p : Production} {code : String} {r : RuleId} {rule : Rule}
    {entries : List (RuleId × Rule)} {others : List (String × Production)} (h : s.Holds P steps w)
    (few : Few (steps ++ [.action r code])) (last : w.rules = others ++ [(left, p)])
    (entry : s.builder.rules.toList = entries ++ [(r, rule)])
    (declared : s.builder.call (.action r code) = (.ok (), b)) :
    Holds P { s with builder := b } (steps ++ [.action r code])
      { w with rules := others ++ [(left, { p with action := some code })] } := by
  have builder := h.builder.step (d := .action r code) few
    (Builder.call_map_of_ok declared _)
  obtain ⟨old, known, rfl⟩ := Builder.action_cases declared
  have rules := h.rules
  have actions := h.rule_actions
  rw [last] at rules actions
  exact { h with
    builder := builder
    terminals := by rw [filterMap_idle rfl]; exact h.terminals
    patterns := by rw [filterMap_idle rfl]; exact h.patterns
    rules := by
      rw [filterMap_idle rfl]
      refine forall₂_replace_last (rules.imp fun _ _ stands => stands.mono (.rebuild s _)) ?_
      exact fun _ stands => ⟨stands.left, stands.right, stands.precedence⟩
    rule_actions := by
      rw [OrderedMap.values, OrderedMap.toList_insert_last entry]
      rw [OrderedMap.values, entry] at actions
      simp only [List.map_append, List.map_cons, List.map_nil] at actions ⊢
      rw [(List.append_inj' actions rfl).1]
    nonterminal_keys := by rw [filterMap_idle rfl]; exact h.nonterminal_keys }

theorem Holds.startSymbol (h : s.Holds P steps w) (few : Few (steps ++ [.start n]))
    (known : s.nonterminals.get? name = some n)
    (declared : s.builder.call (.startSymbol n) = (.ok (), b)) :
    Holds P { s with builder := b } (steps ++ [.start n])
      { w with starts := w.starts ++ [name] } := by
  have builder := h.builder.step (d := .start n) few (Builder.call_map_of_ok declared _)
  obtain ⟨-, rfl⟩ := Builder.startSymbol_cases declared
  exact { h with
    builder := builder
    terminals := by rw [filterMap_idle rfl]; exact h.terminals
    patterns := by rw [filterMap_idle rfl]; exact h.patterns
    rules := by rw [filterMap_idle rfl]; exact h.rules_rebuild _
    start := by simp [known]
    nonterminal_keys := by rw [filterMap_idle rfl]; exact h.nonterminal_keys }

theorem Holds.setHeader (h : s.Holds P steps w) (few : Few (steps ++ [.header code])) :
    Holds P { s with builder := { s.builder with header := some code } } (steps ++ [.header code])
      { w with header := w.header ++ [code] } :=
  { h with
    builder := h.builder.step few rfl
    terminals := by rw [filterMap_idle rfl]; exact h.terminals
    patterns := by rw [filterMap_idle rfl]; exact h.patterns
    rules := by rw [filterMap_idle rfl]; exact h.rules_rebuild _
    header := by rw [List.getLast?_concat]
    nonterminal_keys := by rw [filterMap_idle rfl]; exact h.nonterminal_keys }

theorem Holds.setFooter (h : s.Holds P steps w) (few : Few (steps ++ [.footer code])) :
    Holds P { s with builder := { s.builder with footer := some code } } (steps ++ [.footer code])
      { w with footer := w.footer ++ [code] } :=
  { h with
    builder := h.builder.step few rfl
    terminals := by rw [filterMap_idle rfl]; exact h.terminals
    patterns := by rw [filterMap_idle rfl]; exact h.patterns
    rules := by rw [filterMap_idle rfl]; exact h.rules_rebuild _
    footer := by rw [List.getLast?_concat]
    nonterminal_keys := by rw [filterMap_idle rfl]; exact h.nonterminal_keys }

end Declarations

/-! ## Settings -/

/-- Settings that all have to have one key: the last one counts, if it fits. -/
theorem foldlM_settings {key : String} {f : Setting → Except ε β} {e : ε}
    {settings : List Setting} {init b : β}
    (h : settings.foldlM (fun _ x => if x.key = key then f x else .error e) init = .ok b) :
    lastSetting key settings = settings.getLast?.map (·.value) ∧
      match settings.getLast? with
      | none => b = init
      | some x => f x = .ok b := by
  induction settings generalizing init with
  | nil =>
    cases h
    exact ⟨rfl, rfl⟩
  | cons x rest ih =>
    rw [List.foldlM_cons] at h
    obtain ⟨c, first, others⟩ := bind_eq_ok h
    obtain ⟨all, last⟩ := ih others
    split at first
    · next same =>
      have kept : (x :: rest).filter (·.key = key) = x :: rest.filter (·.key = key) :=
        List.filter_cons_of_pos (by simpa using same)
      rw [lastSetting, kept, List.getLast?_cons, List.getLast?_cons]
      rw [lastSetting] at all
      cases further : rest.getLast? with
      | none =>
        rw [further] at all last
        rw [Option.map_none, Option.map_eq_none_iff] at all
        rw [all]
        exact ⟨rfl, last ▸ first⟩
      | some y =>
        rw [further] at all last
        obtain ⟨z, found, value⟩ := Option.map_eq_some_iff.1 all
        rw [found]
        exact ⟨by simpa using value, last⟩
    · cases first

theorem associativity_eq {settings : List Setting} {assoc : Associativity}
    (h : associativity settings = .ok assoc) :
    ((lastSetting "assoc" settings).bind associativity?).getD .nonassociative = assoc := by
  obtain ⟨all, last⟩ := foldlM_settings h
  rw [all]
  split at last
  · next empty =>
    rw [empty, last]
    rfl
  · next x given =>
    split at last
    · next found =>
      cases last
      rw [given, Option.map_some, Option.bind_some, found, Option.getD_some]
    · cases last

theorem terminalPrecedence_eq {settings : List Setting}
    (h : s.terminalPrecedence settings = .ok precedence) :
    (lastSetting "prec" settings).map s.precedences.get? = precedence.map some := by
  obtain ⟨name, found, h⟩ := bind_eq_ok h
  obtain ⟨all, last⟩ := foldlM_settings found
  rw [all]
  split at last
  · next empty =>
    subst last
    cases h
    rw [empty]
    rfl
  · next x given =>
    cases last
    rw [given]
    dsimp only at h
    split at h
    · next level =>
      cases h
      rw [Option.map_some, Option.map_some, level, Option.map_some]
    · cases h

theorem productionPrecedence_eq {settings : List Setting}
    (h : s.productionPrecedence settings = .ok precedence) :
    (lastSetting "prec" settings).map s.precedences.get? = precedence.map some := by
  obtain ⟨all, last⟩ := foldlM_settings h
  rw [all]
  split at last
  · next empty =>
    rw [empty, last]
    rfl
  · next x given =>
    split at last
    · next level =>
      cases last
      rw [given, Option.map_some, Option.map_some, level, Option.map_some]
    · cases last

end Scope
end Lalr
