import Lalr.Proofs.Grammar.Lowering

/-! The grammar that a file defines is the one that is written there, and the order of statements
of different groups does not count. -/
namespace Lalr

open Source Declaration

theorem map_eq_of_forall₂ {R : α → β → Prop} {f : α → γ} {g : β → γ} {xs : List α} {ys : List β}
    (h : List.Forall₂ R xs ys) (same : ∀ x y, R x y → f x = g y) : xs.map f = ys.map g := by
  induction h with
  | nil => rfl
  | cons first _ ih => rw [List.map_cons, List.map_cons, same _ _ first, ih]

theorem map_mapIdx_eq_of_forall₂ {R : α → β → Prop} {f : Nat → α → γ} {k : γ → δ}
    {g : Nat → β → δ} {xs : List α} {ys : List β} (h : List.Forall₂ R xs ys)
    (same : ∀ i x y, R x y → k (f i x) = g i y) : (xs.mapIdx f).map k = ys.mapIdx g := by
  induction h generalizing f g with
  | nil => rfl
  | cons first _ ih =>
    rw [List.mapIdx_cons, List.mapIdx_cons, List.map_cons, same _ _ _ first,
      ih fun i => same (i + 1)]

theorem map_prod_eq {f : α → γ} {g : α → δ} {f' : β → γ} {g' : β → δ} {xs : List α} {ys : List β}
    (first : xs.map f = ys.map f') (second : xs.map g = ys.map g') :
    xs.map (fun x => (f x, g x)) = ys.map fun y => (f' y, g' y) := by
  rw [← List.zip_map', ← List.zip_map', first, second]

/-- The left-hand side of the accepting rule has no name. -/
theorem Builder.Holds.start_unnamed {b : Builder} {steps : List Declaration} (h : b.Holds steps) :
    (b.nonterminals.get? .start).bind Nonterminal.exportName = none := by
  have names := h.nonterminals
  have keys := h.numbered.nonterminals.keys
  rw [OrderedMap.values] at names
  rw [OrderedMap.keys, OrderedMap.size] at keys
  rw [OrderedMap.get?]
  cases entries : b.nonterminals.toList with
  | nil => simp [entries] at names
  | cons first rest =>
    rw [entries, List.map_cons, List.map_cons] at names
    rw [entries, List.map_cons, List.map_cons, List.length_cons, List.range'_succ] at keys
    have zero : first.1 = .start :=
      congrArg NonterminalId.mk (UInt16.toNat_inj.1 (List.cons.inj keys).1)
    rw [OrderedMap.lookup, if_pos zero.symm]
    exact (List.cons.inj names).1

namespace Scope

variable {s : Scope} {P : String → Option Precedence} {steps : List Declaration} {w : Written}
  {name : String} {t : TerminalId} {n : NonterminalId} {X : Symbol}

def symbol (s : Scope) (name : String) : Symbol :=
  match s.terminals.get? name with
  | some t => .terminal t
  | none => .nonterminal ((s.nonterminals.get? name).getD .start)

theorem symbol_eq_terminal : s.symbol name = .terminal t ↔ s.terminals.get? name = some t := by
  unfold symbol
  split <;> simp_all

theorem Means.symbol_eq (means : s.Means name X) (h : s.Holds P steps w) : s.symbol name = X := by
  cases X with
  | terminal t => exact symbol_eq_terminal.2 means
  | nonterminal n =>
    unfold symbol
    split
    · next t terminal => exact (h.disjoint terminal means).elim
    · rw [show s.nonterminals.get? name = some n from means]
      rfl

theorem Knows.means (knows : s.Knows name) (h : s.Holds P steps w) :
    s.Means name (s.symbol name) := by
  rcases knows with member | member
  · obtain ⟨t, known⟩ := OrderedMap.mem_keys_iff.1 member
    rwa [Means.symbol_eq (X := .terminal t) known h]
  · obtain ⟨n, known⟩ := OrderedMap.mem_keys_iff.1 member
    rwa [Means.symbol_eq (X := .nonterminal n) known h]

theorem Means.unique {name' : String} (h : s.Holds P steps w) (means : s.Means name X)
    (means' : s.Means name' X) : name = name' := by
  cases X with
  | terminal t =>
    have first := (h.terminal_iff name t).1 means
    exact Option.some.inj (first.symm.trans ((h.terminal_iff name' t).1 means'))
  | nonterminal n =>
    have first := (h.nonterminal_iff name n).1 means
    exact Option.some.inj (first.symm.trans ((h.nonterminal_iff name' n).1 means'))

theorem ElementMeans.symbol_eq {e : Element} (means : s.ElementMeans e X)
    (h : s.Holds P steps w) : e.symbol s.symbol = X := by
  cases e with
  | error => exact means.symm
  | name name => exact Means.symbol_eq means h

/-- Names, precedences and code of the terminals, reserved ones first. -/
theorem Holds.terminals_lower {level : String → Option (Nat × Associativity)}
    (h : s.Holds P steps w) (levels : ∀ name, (P name).map Precedence.level = level name) :
    s.builder.terminals.values.map (fun t =>
      (t.exportName, t.precedence.map (some ·.level), t.action)) =
    List.replicate 3 (none, none, none) ++ w.terminals.map fun (settings, d) =>
      (some d.name, (lastSetting "prec" settings).map level, d.action) := by
  have first : (steps.filterMap terminal?).map (fun e => (some e.1, e.2.map (some ·.level))) =
      w.terminals.map fun e => (some e.2.name, (lastSetting "prec" e.1).map level) := by
    have leveled := congrArg (List.map fun (name, precedence) =>
      (some name, precedence.map (Option.map Precedence.level))) h.terminals
    simpa [Function.comp_def, levels] using leveled
  -- A reserved terminal is one that nothing is written about.
  let all : List (Option (List Setting × TerminalDefinition)) :=
    List.replicate 3 none ++ w.terminals.map some
  have named : s.builder.terminals.values.map (fun t =>
      (t.exportName, t.precedence.map (some ·.level))) =
      all.map fun e => (e.map (·.2.name), e.bind fun e => (lastSetting "prec" e.1).map level) := by
    have kept := congrArg (List.map fun e : Option String × Option Precedence =>
      (e.1, e.2.map (some ·.level))) h.builder.terminals
    rw [List.map_map, List.map_append, List.map_map] at kept
    simpa [all, Function.comp_def] using kept.trans (congrArg _ first)
  have coded : s.builder.terminals.values.map Terminal.action = all.map (·.bind (·.2.action)) := by
    simpa [all, Function.comp_def] using h.terminal_actions
  have both := congrArg (List.map fun ((a, b), c) => (a, b, c)) (map_prod_eq named coded)
  simpa [all, Function.comp_def] using both

theorem Holds.tokens_lower (h : s.Holds P steps w) :
    s.builder.tokens.map (fun p => (Symbol.terminal p.terminal, p.pattern, p.priority)) =
      w.patterns.mapIdx fun i (name, pattern) =>
        ((name.map s.symbol).getD (.terminal .whitespace), pattern, i) := by
  rw [h.builder.tokens]
  refine map_mapIdx_eq_of_forall₂ h.patterns fun i ⟨t, p⟩ ⟨name, pattern⟩ ⟨means, same⟩ => ?_
  cases same
  cases name with
  | none =>
    cases means
    rfl
  | some name =>
    dsimp only
    rw [Option.map_some, Option.getD_some, Means.symbol_eq (X := .terminal t) means h]

theorem Holds.rules_lower {level : String → Option (Nat × Associativity)}
    (h : s.Holds P steps w) (levels : ∀ name, (P name).map Precedence.level = level name) :
    s.builder.rules.values.map (fun r =>
      (Symbol.nonterminal r.left, r.right.toList, r.precedence.map (some ·.level), r.action)) =
    w.rules.map fun (left, p) => (s.symbol left, p.elements.map (·.symbol s.symbol),
      (lastSetting "prec" p.settings).map level, p.action) := by
  have stands := h.rules
  rw [← h.builder.rules, List.forall₂_map_left_iff] at stands
  have sides : s.builder.rules.values.map (fun r =>
      (Symbol.nonterminal r.left, r.right.toList, r.precedence.map (some ·.level))) =
      w.rules.map fun (left, p) => (s.symbol left, p.elements.map (·.symbol s.symbol),
        (lastSetting "prec" p.settings).map level) := by
    refine map_eq_of_forall₂ stands fun r ⟨left, p⟩ stand => ?_
    have first := Means.symbol_eq (X := .nonterminal r.left) stand.left h
    have elements : p.elements.map (·.symbol s.symbol) = r.right.toList.map id :=
      map_eq_of_forall₂ stand.right fun _ _ means => means.symbol_eq h
    have third := congrArg (Option.map (Option.map Precedence.level)) stand.precedence
    simp only [Option.map_map, Function.comp_def, levels, Option.map_some] at third
    dsimp only at first
    rw [← third, ← first]
    simp [elements]
  have both := congrArg (List.map fun ((a, b, c), d) => (a, b, c, d))
    (map_prod_eq sides h.rule_actions)
  simpa [Function.comp_def] using both

theorem Holds.start_lower (h : s.Holds P steps w) :
    s.builder.effectiveStart.map Symbol.nonterminal =
      (w.starts.getLast? <|> w.rules.head?.map Prod.fst).map s.symbol := by
  have start := h.start
  rw [Builder.effectiveStart]
  cases given : w.starts.getLast? with
  | some name =>
    rw [given, Option.map_some] at start
    obtain ⟨n, chosen, known⟩ := Option.map_eq_some_iff.1 start
    rw [chosen]
    exact congrArg some (Means.symbol_eq (X := .nonterminal n) known.symm h).symm
  | none =>
    rw [given, Option.map_none, Option.map_eq_none_iff] at start
    have lefts := congrArg (List.head? ∘ List.map Prod.fst) (h.rules_lower fun _ => rfl)
    rw [start]
    simpa [Function.comp_def] using lefts

/-- The grammar of a scope where just these statements have been lowered. -/
theorem Holds.lowers {statements : List Statement} (h : s.Holds P steps (written statements))
    (levels : ∀ name, (P name).map Precedence.level = precedenceNamed statements name)
    (names : ∀ name ∈ s.nonterminals.keys, name ∈ nonterminalNames statements)
    (knows : ∀ name ∈ mentionedNames statements, s.Knows name) :
    s.builder.finish.Lowers statements s.symbol := by
  have records := h.builder.records_finish
  have user := h.builder.userRules_finish
  have known (name : String)
      (member : name ∈ terminalNames statements ++ mentionedNames statements) :
      s.Means name (s.symbol name) := by
    refine Knows.means ?_ h
    rcases List.mem_append.1 member with terminal | mentioned
    · exact .inl (h.terminal_keys ▸ terminal)
    · exact knows name mentioned
  have nonterminal (name : String) (member : name ∈ nonterminalNames statements) :
      ∃ n, s.symbol name = .nonterminal n ∧ s.nonterminals.get? name = some n := by
    obtain ⟨mentioned, other⟩ := List.mem_filter.1 member
    have means := known name (List.mem_append_right _ mentioned)
    cases meaning : s.symbol name with
    | terminal t =>
      rw [meaning] at means
      have key := OrderedMap.mem_keys_of_get? (show s.terminals.get? name = some t from means)
      rw [h.terminal_keys] at key
      exact absurd key (of_decide_eq_true other)
    | nonterminal n =>
      rw [meaning] at means
      exact ⟨n, rfl, means⟩
  constructor
  case terminal =>
    intro name
    simp only [symbol_eq_terminal, ← OrderedMap.mem_keys_iff, h.terminal_keys]
    rfl
  case terminal_named =>
    exact fun name t meaning => (h.terminal_iff name t).1 (symbol_eq_terminal.1 meaning)
  case nonterminal_named =>
    intro name mentioned n meaning
    have means := known name (List.mem_append_right _ mentioned)
    rw [meaning] at means
    exact (h.nonterminal_iff name n).1 means
  case injective =>
    intro name member name' member' same
    exact (known name member).unique h (same ▸ known name' member')
  case nonterminals =>
    intro name
    constructor
    · intro member
      obtain ⟨entry, inside, named⟩ := List.mem_map.1 member
      obtain ⟨n, entry⟩ := OrderedMap.mem_values_iff.1 inside
      refine names name (OrderedMap.mem_keys_of_get? ((h.nonterminal_iff name n).2 ?_))
      exact Option.bind_eq_some_iff.2 ⟨_, entry, named⟩
    · intro member
      obtain ⟨n, -, known⟩ := nonterminal name member
      obtain ⟨entry, inside, named⟩ :=
        Option.bind_eq_some_iff.1 ((h.nonterminal_iff name n).1 known)
      exact List.mem_map.2 ⟨entry, OrderedMap.mem_values_iff.2 ⟨n, inside⟩, named⟩
  case terminal_ids =>
    rw [← records.terminal_ids, ← records.terminal_known, List.map_map]
    rfl
  case terminals => exact h.terminals_lower levels
  case tokens => exact h.tokens_lower
  case rule_ids => exact records.user_ids
  case rules =>
    rw [user]
    exact h.rules_lower levels
  case undefined =>
    intro name member unruled
    obtain ⟨n, meaning, known⟩ := nonterminal name member
    have named := (h.nonterminal_iff name n).1 known
    refine ⟨n, meaning, List.filter_eq_nil_iff.2 fun r inRules left => ?_⟩
    obtain rfl := of_decide_eq_true left
    rw [records.rules, user] at inRules
    rcases List.mem_append.1 inRules with accepting | inRules
    · obtain ⟨m, -, rfl⟩ := Option.map_eq_some_iff.1 (Option.mem_toList.1 accepting)
      rw [Builder.acceptingRule, h.builder.start_unnamed] at named
      cases named
    · have stands := h.rules
      rw [← h.builder.rules, List.forall₂_map_left_iff] at stands
      obtain ⟨alternative, inside, stand⟩ := exists_of_forall₂ stands inRules
      have same := Means.unique (X := .nonterminal r.left) h known stand.left
      exact unruled (same ▸ List.mem_map_of_mem inside)
  case start => exact h.start_lower
  case header => exact h.header
  case footer => exact h.footer

end Scope

theorem mem_mentionedNames {statements : List Statement} {name : String} :
    name ∈ mentionedNames statements ↔ ∃ st ∈ statements, name ∈ mentionedNames [st] := by
  simp only [mentionedNames, declaredNames, usedNames, List.flatMap_singleton, List.mem_append,
    List.mem_flatMap, ← exists_or, ← and_or_left]

theorem mentionedNames_eq_nil {st : Statement} (symbols : st.group = 1) :
    mentionedNames [st] = [] := by
  cases st with
  | terminal | whitespace => rfl
  | code place => cases place <;> cases symbols
  | _ => cases symbols

namespace Source

theorem Statement.grouped_eq (statements : List Statement) : Statement.grouped statements =
    statements.filter (·.group = 0) ++ (statements.filter (·.group = 1) ++
      (List.range' 2 4).flatMap fun group => statements.filter (·.group = group)) := rfl

section Grouped

variable (statements)

theorem writtenPrecedences_group (k : Nat) :
    writtenPrecedences (statements.filter (·.group = k)) =
      if k = 0 then writtenPrecedences statements else [] :=
  flatMap_group (fun st other => by cases st <;> first | rfl | exact absurd rfl other) statements k

theorem writtenTerminals_group (k : Nat) :
    writtenTerminals (statements.filter (·.group = k)) =
      if k = 1 then writtenTerminals statements else [] :=
  flatMap_group (fun st other => by cases st <;> first | rfl | exact absurd rfl other) statements k

theorem written_grouped : written (Statement.grouped statements) = written statements := by
  simp only [written, writtenTerminals, writtenPatterns, writtenRules, startNames, writtenCode]
  congr 1
  case e_terminals | e_patterns =>
    refine flatMap_grouped (show 1 < 6 by decide) (fun st other => ?_) statements
    cases st <;> first | rfl | exact absurd rfl other
  case e_rules =>
    refine flatMap_grouped (show 3 < 6 by decide) (fun st other => ?_) statements
    cases st <;> first | rfl | exact absurd rfl other
  case e_starts =>
    refine flatMap_grouped (show 4 < 6 by decide) (fun st other => ?_) statements
    cases st <;> first | rfl | exact absurd rfl other
  case e_header | e_footer =>
    refine flatMap_grouped (show 5 < 6 by decide) (fun st other => ?_) statements
    cases st <;> first | rfl | exact absurd rfl other

theorem mentionedNames_grouped :
    mentionedNames (Statement.grouped statements) = mentionedNames statements := by
  have declared : declaredNames (Statement.grouped statements) = declaredNames statements := by
    refine flatMap_grouped (show 2 < 6 by decide) (fun st other => ?_) statements
    cases st <;> first | rfl | exact absurd rfl other
  have used : usedNames (Statement.grouped statements) = usedNames statements := by
    refine flatMap_grouped (show 3 < 6 by decide) (fun st other => ?_) statements
    cases st <;> first | rfl | exact absurd rfl other
  rw [mentionedNames, declared, used, mentionedNames]

end Grouped

end Source

/-- The scope in which all statements of a file have been lowered. -/
theorem Grammar.ofStatements_reads {statements : List Statement} {g : Grammar}
    (moderate : Moderate statements) (accepted : Grammar.ofStatements statements = .ok g) :
    ∃ (s : Scope) (P : String → Option Precedence), g = s.builder.finish ∧
      (∀ name, (P name).map Precedence.level = precedenceNamed statements name) ∧
      s.Reads P (nonterminalNames statements) (Statement.grouped statements) := by
  obtain ⟨s, lowered, rfl⟩ := map_eq_ok accepted
  have whole := Statement.grouped_eq statements
  have written := written_grouped statements
  -- Levels, then all terminals, then the statements that may mention them.
  let levels := statements.filter (·.group = 0)
  let symbols := statements.filter (·.group = 1)
  let rest := (List.range' 2 4).flatMap fun group => statements.filter (·.group = group)
  change Statement.grouped statements = levels ++ (symbols ++ rest) at whole
  rw [whole] at lowered written ⊢
  rw [List.foldlM_append] at lowered
  obtain ⟨s₀, first, lowered⟩ := bind_eq_ok lowered
  rw [List.foldlM_append] at lowered
  obtain ⟨s₁, second, third⟩ := bind_eq_ok lowered
  rw [← List.append_assoc] at written ⊢
  have levels_group : ∀ st ∈ levels, st.group = 0 := fun st member =>
    of_decide_eq_true (List.mem_filter.1 member).2
  have symbols_group : ∀ st ∈ symbols, st.group = 1 := fun st member =>
    of_decide_eq_true (List.mem_filter.1 member).2
  have precedences : writtenPrecedences levels = writtenPrecedences statements :=
    writtenPrecedences_group statements 0
  have terminals : writtenTerminals (levels ++ symbols) = writtenTerminals statements := by
    rw [writtenTerminals, List.flatMap_append]
    change writtenTerminals levels ++ writtenTerminals symbols = _
    rw [writtenTerminals_group, writtenTerminals_group]
    rfl
  have rules : (writtenRules (levels ++ symbols ++ rest)).length ≤ 65000 := by
    rw [show writtenRules _ = writtenRules statements from congrArg Written.rules written]
    exact Nat.le_of_lt moderate.rules
  have few := Nat.le_of_lt moderate.nonterminals
  have leveled : s₀.Leveled levels := Scope.initial_leveled.statements
    (by rw [List.nil_append, precedences]; exact Nat.le_of_lt moderate.precedences) levels_group
    first
  have rules₁ : (writtenRules (levels ++ symbols)).length ≤ 65000 := by
    rw [writtenRules, List.flatMap_append, List.length_append] at rules
    exact Nat.le_of_add_right_le rules
  have declared :
      s₁.Reads s₀.precedences.get? (nonterminalNames statements) (levels ++ symbols) := by
    refine (leveled.reads levels_group).statements few ?_ rules₁ ?_ ?_ second
    · rw [terminals]
      exact Nat.le_of_lt moderate.terminals
    · intro st member name mentioned
      rw [mentionedNames_eq_nil (symbols_group st member)] at mentioned
      cases mentioned
    · intro st member
      rw [symbols_group st member]
      decide
  refine ⟨s, s₀.precedences.get?, rfl, fun name => ?_, declared.statements few ?_ rules ?_ ?_ third⟩
  · rw [leveled.precedences, precedenceNamed, precedenceLevels, precedences]
    rfl
  · rw [show writtenTerminals _ = writtenTerminals statements from
      congrArg Written.terminals written]
    exact Nat.le_of_lt moderate.terminals
  · intro st member name mentioned other
    obtain ⟨group, -, inside⟩ := List.mem_flatMap.1 member
    rw [terminalNames, terminals] at other
    have mentioned := mem_mentionedNames.2 ⟨st, (List.mem_filter.1 inside).1, mentioned⟩
    exact List.mem_filter.2 ⟨mentioned, decide_eq_true other⟩
  · intro st member
    obtain ⟨group, range, inside⟩ := List.mem_flatMap.1 member
    rw [of_decide_eq_true (List.mem_filter.1 inside).2]
    rintro rfl
    revert range
    decide

/-- Only the order of statements of the same group counts. -/
theorem Grammar.ofStatements_congr {statements statements' : List Statement}
    (same : ∀ group, statements'.filter (·.group = group) = statements.filter (·.group = group)) :
    Grammar.ofStatements statements' = Grammar.ofStatements statements := by
  have grouped : Statement.grouped statements' = Statement.grouped statements := by
    rw [Statement.grouped, funext same, Statement.grouped]
  rw [Grammar.ofStatements, grouped, Grammar.ofStatements]

/-- A file that is accepted defines the grammar that is written in it, and so does any other with
the same statements in each group. -/
theorem Grammar.ofStatements_lowers {statements : List Statement} {g : Grammar}
    (moderate : Moderate statements) (accepted : Grammar.ofStatements statements = .ok g) :
    (∃ symbol, g.Lowers statements symbol) ∧
    ∀ statements' : List Statement,
      (∀ group, statements'.filter (·.group = group) = statements.filter (·.group = group)) →
      Grammar.ofStatements statements' = .ok g := by
  refine ⟨?_, fun statements' same => ?_⟩
  · obtain ⟨s, P, rfl, levels, read⟩ := Grammar.ofStatements_reads moderate accepted
    obtain ⟨steps, holds⟩ := read.holds
    rw [written_grouped] at holds
    have knows := read.knows
    rw [mentionedNames_grouped] at knows
    exact ⟨s.symbol, holds.lowers levels read.names knows⟩
  · rw [Grammar.ofStatements_congr same, accepted]

def Source.sums : List Statement :=
  [.rule "Expr" [⟨[], [.name "Expr", .name "PLUS", .name "Expr"], some "a + b"⟩,
      ⟨[], [.name "NUM"], none⟩, ⟨[], [.name "Missing"], none⟩],
    .prec [⟨"assoc", "left"⟩] "ADD",
    .terminal [⟨"prec", "ADD"⟩] [⟨"PLUS", some "\\+", none⟩],
    .terminal [] [⟨"NUM", some "[0-9]+", some "print"⟩],
    .whitespace [" +"]]

theorem Grammar.ofStatements_lowers_sums : Moderate Source.sums ∧
    ∃ g, Grammar.ofStatements Source.sums = .ok g ∧ ∃ symbol, g.Lowers Source.sums symbol := by
  have moderate : Moderate Source.sums := by
    constructor <;> decide +kernel
  have ok : (Grammar.ofStatements Source.sums).isOk = true := by decide +kernel
  cases accepted : Grammar.ofStatements Source.sums with
  | error e =>
    rw [accepted] at ok
    cases ok
  | ok g => exact ⟨moderate, g, rfl, (Grammar.ofStatements_lowers moderate accepted).1⟩

end Lalr
