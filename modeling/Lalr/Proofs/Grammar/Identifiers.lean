import Lalr.Grammar.OfStatements
import Lalr.Proofs.Grammar.Declarations

/-! Identifiers are handed out one after the other, and behind the last one they begin again. They
are new exactly as long as there are enough of them: what is declared behind the last one takes the
place of what has its identifier. Priorities of precedence levels begin again as well. -/
namespace Lalr

section HandedOut

variable {κ : Type u} {α : Type v} {raw : κ → UInt16} {m : OrderedMap κ α}
  {front given : List κ} {k next next' : κ} {a old : α}

/-- Keys were handed out in order: those in `front` without an entry of the map, then those in
`given` with one, and `next` comes next. -/
structure OrderedMap.HandedOut (raw : κ → UInt16) (front given : List κ) (m : OrderedMap κ α)
    (next : κ) : Prop where
  numbers : (front ++ given).map raw = (List.range (front ++ given).length).map UInt16.ofNat
  next : raw next = .ofNat (front ++ given).length
  keys : (front ++ given).Nodup → m.keys = given

namespace OrderedMap.HandedOut

theorem insert [DecidableEq κ] (h : m.HandedOut raw front given next)
    (following : raw next' = raw next + 1) (a : α) :
    (m.insert next a).HandedOut raw front (given ++ [next]) next' := by
  have behind : front ++ (given ++ [next]) = front ++ given ++ [next] := by rw [List.append_assoc]
  have length : (front ++ given ++ [next]).length = (front ++ given).length + 1 :=
    List.length_append
  constructor
  case numbers =>
    rw [behind, length, List.map_append, h.numbers, List.map_singleton, h.next, List.range_succ,
      List.map_append, List.map_singleton]
  case next => rw [following, h.next, behind, length, UInt16.ofNat_add, UInt16.ofNat_one]
  case keys =>
    intro nodup
    rw [behind, List.nodup_append] at nodup
    obtain ⟨before, -, apart⟩ := nodup
    have keys := h.keys before
    have fresh : next ∉ m.keys := by
      rw [keys]
      intro member
      exact apart next (List.mem_append_right front member) next List.mem_cons_self rfl
    rw [keys_insert, if_neg fresh, keys]

theorem replace [DecidableEq κ] (h : m.HandedOut raw front given next)
    (entry : m.get? k = some old) (a : α) :
    (m.insert k a).HandedOut raw front given next := by
  refine { h with keys := fun nodup => ?_ }
  rw [keys_insert, if_pos (mem_keys_of_get? entry), h.keys nodup]

/-- They differ as long as there are enough numbers. -/
theorem nodup_iff (h : m.HandedOut raw front given next) (inj : Function.Injective raw) :
    (front ++ given).Nodup ↔ (front ++ given).length ≤ UInt16.size := by
  rw [← List.nodup_map_iff inj, h.numbers]
  generalize (front ++ given).length = n
  constructor
  · intro nodup
    by_contra more
    rw [List.nodup_map_iff_inj_on List.nodup_range] at nodup
    have same := nodup 0 (List.mem_range.2 (by omega)) UInt16.size (List.mem_range.2 (by omega)) rfl
    cases same
  · intro few
    refine List.Nodup.map_on (fun i inRange j inRange' same => ?_) List.nodup_range
    rw [List.mem_range] at inRange inRange'
    have := congrArg UInt16.toNat same
    rwa [UInt16.toNat_ofNat_of_lt' (by omega), UInt16.toNat_ofNat_of_lt' (by omega)] at this

/-- As long as they differ, nothing is replaced. -/
theorem fresh_iff (h : m.HandedOut raw front given next) (inj : Function.Injective raw) :
    (front ++ given).Nodup ∧ m.keys = given ↔ (front ++ given).length ≤ UInt16.size := by
  rw [and_iff_left_of_imp h.keys, h.nodup_iff inj]

end OrderedMap.HandedOut
end HandedOut

namespace Declared

def terminal? : Declared → Option TerminalId
  | .symbol (.terminal t) => some t
  | _ => none

def nonterminal? : Declared → Option NonterminalId
  | .symbol (.nonterminal n) => some n
  | _ => none

def rule? : Declared → Option RuleId
  | .rule r => some r
  | _ => none

def issued {κ : Type} (kind : Declared → Option κ)
    (results : List (Except DefinitionError Declared)) : List κ :=
  results.filterMap fun r => r.toOption.bind kind

end Declared

namespace Builder

open Declared

variable {b b' : Builder} {d : Declaration} {x : Declared} {steps : List Declaration}
  {results : List (Except DefinitionError Declared)}

def reservedTerminals : List TerminalId := [.endOfInput, .error, .whitespace]

/-- The identifiers that the steps with these results were given, behind the reserved ones. -/
structure Issued (b : Builder) (results : List (Except DefinitionError Declared)) : Prop where
  terminals : b.terminals.HandedOut TerminalId.raw []
    (reservedTerminals ++ issued Declared.terminal? results) b.nextTerminal
  nonterminals : b.nonterminals.HandedOut NonterminalId.raw []
    (.start :: issued Declared.nonterminal? results) b.nextNonterminal
  rules : b.rules.HandedOut RuleId.raw [.accept] (issued Declared.rule? results) b.nextRule

theorem initial_issued : initial.Issued [] where
  terminals := ⟨by decide, rfl, fun _ => rfl⟩
  nonterminals := ⟨by decide, rfl, fun _ => rfl⟩
  rules := ⟨by decide, rfl, fun _ => rfl⟩

theorem Issued.error (h : b.Issued results) (e : DefinitionError) :
    b.Issued (results ++ [.error e]) := by
  have same {κ : Type} (kind : Declared → Option κ) :
      issued kind (results ++ [.error e]) = issued kind results := by
    simp [issued, Except.toOption]
  constructor
  case terminals => rw [same]; exact h.terminals
  case nonterminals => rw [same]; exact h.nonterminals
  case rules => rw [same]; exact h.rules

theorem Issued.step (h : b.Issued results) (s : b.Steps d x b') :
    b'.Issued (results ++ [.ok x]) := by
  have last {κ : Type} (kind : Declared → Option κ) : issued kind (results ++ [.ok x]) =
      issued kind results ++ (kind x).toList := by
    cases given : kind x <;> simp [issued, Except.toOption, given]
  constructor
  case terminals =>
    rw [last]
    cases s with
    | terminal => exact h.terminals.insert rfl _
    | terminalAction known => simpa [Declared.terminal?] using h.terminals.replace known _
    | _ => simpa [Declared.terminal?] using h.terminals
  case nonterminals =>
    rw [last]
    cases s with
    | nonterminal => exact h.nonterminals.insert rfl _
    | _ => simpa [Declared.nonterminal?] using h.nonterminals
  case rules =>
    rw [last]
    cases s with
    | rule => exact h.rules.insert rfl _
    | action known => simpa [Declared.rule?] using h.rules.replace known _
    | _ => simpa [Declared.rule?] using h.rules

theorem Issued.declareAll (h : b.Issued results) :
    (b.declareAll steps).2.Issued (results ++ (b.declareAll steps).1) := by
  induction steps generalizing b results with
  | nil => simpa [Builder.declareAll] using h
  | cons d rest ih =>
    rcases b.declare_cases d with ⟨e, failed⟩ | ⟨x, b', declared⟩
    · simpa [Builder.declareAll, failed] using ih (h.error e)
    · simpa [Builder.declareAll, declared] using ih (h.step (declare_steps declared))

/-- There are enough identifiers for the terminals if these differ. -/
theorem Issued.length_le (h : b.Issued results)
    (nodup : (reservedTerminals ++ issued Declared.terminal? results).Nodup) :
    (issued Declared.terminal? results).length ≤ 65533 := by
  have few := (h.terminals.nodup_iff fun _ _ => congrArg TerminalId.mk).1 nodup
  simp only [reservedTerminals, List.nil_append, List.cons_append, List.length_cons,
    UInt16.size] at few
  omega

/-- What steps are given from the beginning. -/
theorem declareAll_issued (steps : List Declaration) :
    (initial.declareAll steps).2.Issued (initial.declareAll steps).1 := initial_issued.declareAll

/-- The identifiers that steps are given differ from each other and from the reserved ones, and no
declaration replaces another, exactly if there are no more than 65533 terminals, 65535 nonterminals
and 65535 rules. -/
theorem identifiers_fresh_iff (steps : List Declaration) :
    let (results, b) := initial.declareAll steps
    ((reservedTerminals ++ issued Declared.terminal? results).Nodup ∧
        b.terminals.keys = reservedTerminals ++ issued Declared.terminal? results ↔
      (issued Declared.terminal? results).length ≤ 65533) ∧
    ((.start :: issued Declared.nonterminal? results).Nodup ∧
        b.nonterminals.keys = .start :: issued Declared.nonterminal? results ↔
      (issued Declared.nonterminal? results).length ≤ 65535) ∧
    ((.accept :: issued Declared.rule? results).Nodup ∧
        b.rules.keys = issued Declared.rule? results ↔
      (issued Declared.rule? results).length ≤ 65535) := by
  have last := declareAll_issued steps
  have terminals := last.terminals.fresh_iff fun _ _ => congrArg TerminalId.mk
  have nonterminals := last.nonterminals.fresh_iff fun _ _ => congrArg NonterminalId.mk
  have rules := last.rules.fresh_iff fun _ _ => congrArg RuleId.mk
  refine ⟨terminals.trans ?_, nonterminals.trans ?_, rules.trans ?_⟩
  · simp only [reservedTerminals, List.nil_append, List.cons_append, List.length_cons, UInt16.size]
    omega
  · simp only [List.nil_append, List.length_cons, UInt16.size]
    omega
  · simp only [List.nil_append, List.cons_append, List.length_cons, UInt16.size]
    omega

section Exhausted

variable {names : List String}

theorem exportNames_terminal {name : String} {t : TerminalId}
    (declared : b.call (.terminal name none) = (.ok t, b')) :
    ∀ other ∈ b'.exportNames, other = name ∨ other ∈ b.exportNames := by
  obtain ⟨-, -, rfl⟩ := terminal_cases declared
  intro other member
  simp only [exportNames, List.mem_append, List.mem_filterMap, OrderedMap.mem_values_iff,
    OrderedMap.get?_insert] at member ⊢
  rcases member with ⟨terminal, ⟨k, entry⟩, exported⟩ | member
  · split at entry
    · cases entry
      exact .inl (Option.some.inj exported).symm
    · exact .inr (.inl ⟨terminal, ⟨k, entry⟩, exported⟩)
  · exact .inr (.inr member)

/-- Terminals with different names are declared, whatever their number. -/
theorem declareAll_terminals (valid : ∀ name ∈ names, Text.isSymbolName name = true)
    (fresh : ∀ name ∈ names, name ∉ b.exportNames) (nodup : names.Nodup) :
    ∀ r ∈ (b.declareAll (names.map (.terminal · none))).1,
      ∃ t, r = .ok (.symbol (.terminal t)) := by
  induction names generalizing b with
  | nil => simp [Builder.declareAll]
  | cons name rest ih =>
    obtain ⟨here, others⟩ := List.forall_mem_cons.1 valid
    obtain ⟨new, apart⟩ := List.forall_mem_cons.1 fresh
    obtain ⟨first, nodup⟩ := List.nodup_cons.1 nodup
    obtain ⟨t, b', declared⟩ : ∃ t b', b.call (.terminal name none) = (.ok t, b') := by
      have unexported : b.isExported name = false := by
        rw [Bool.eq_false_iff, ne_eq, isExported_iff]
        exact new
      simp [call_terminal, here, unexported]
    have step : b.declare (.terminal name none) = (.ok (.symbol (.terminal t)), b') :=
      call_map_of_ok declared _
    have later := ih (b := b') others (fun other member exported => ?_) nodup
    · simpa [Builder.declareAll, step] using later
    · rcases exportNames_terminal declared other exported with rfl | known
      · exact first member
      · exact apart other member known

def manyNames : List String :=
  (List.range 65534).map fun i => .ofList (List.replicate (i + 1) 'a')

theorem isSymbolName_replicate (n : Nat) :
    Text.isSymbolName (.ofList (List.replicate (n + 1) 'a')) = true := by
  have other : (Text.strictWords ++ Text.reservedWords).all (·.toList.any (· ≠ 'a')) = true := by
    decide
  have absent : .ofList (List.replicate (n + 1) 'a') ∉ Text.strictWords ++ Text.reservedWords := by
    intro member
    obtain ⟨c, inName, different⟩ := List.any_eq_true.1 (List.all_eq_true.1 other _ member)
    rw [String.toList_ofList] at inName
    exact of_decide_eq_true different (List.eq_of_mem_replicate inName)
  obtain ⟨strict, reserved⟩ := not_or.1 fun either => absent (List.mem_append.2 either)
  have letters : (String.ofList (List.replicate (n + 1) 'a')).toList =
      'a' :: List.replicate n 'a' := by
    rw [String.toList_ofList, List.replicate_succ]
  have plain : Text.isPlainIdentifier ('a' :: List.replicate n 'a') = true := by
    have start : Text.isNameStart 'a' = true := by decide
    have continues : Text.isNameContinue 'a' = true := by decide
    simp [Text.isPlainIdentifier, start, continues]
  rw [Text.isSymbolName, letters]
  simp [strict, reserved, plain]

theorem nodup_manyNames : manyNames.Nodup := by
  refine List.Nodup.map (fun i j same => ?_) List.nodup_range
  have lengths := congrArg (fun name => name.toList.length) same
  simpa using lengths

def manyTerminals : List Declaration := manyNames.map (.terminal · none)

/-- All of them are declared. -/
theorem declareAll_manyTerminals : ∀ r ∈ (initial.declareAll manyTerminals).1,
    ∃ t, r = .ok (.symbol (.terminal t)) := by
  refine declareAll_terminals (fun name member => ?_) (fun name _ exported => ?_) nodup_manyNames
  · obtain ⟨i, -, rfl⟩ := List.mem_map.1 member
    exact isSymbolName_replicate i
  · cases exported

theorem length_declareAll : (b.declareAll steps).1.length = steps.length := by
  induction steps generalizing b with
  | nil => rfl
  | cons d rest ih => simp [Builder.declareAll, ih]

theorem length_issued_terminals (declared : ∀ r ∈ results, ∃ t, r = .ok (.symbol (.terminal t))) :
    (issued Declared.terminal? results).length = results.length := by
  refine List.filterMap_length_eq_length.2 fun r member => ?_
  obtain ⟨t, rfl⟩ := declared r member
  rfl

end Exhausted

end Builder

namespace Scope

open Source

/-- A terminal without a pattern, of a known level. -/
theorem statement_terminal {s : Scope} {level name : String} {p : Precedence}
    (known : s.precedences.get? level = some p) (valid : Text.isSymbolName name = true)
    (fresh : s.builder.isExported name = false) :
    s.statement (.terminal [⟨"prec", level⟩] [⟨name, none, none⟩]) = .ok { s with
      builder := { s.builder with
        terminals := s.builder.terminals.insert s.builder.nextTerminal
          ⟨s.builder.nextTerminal, some name, some p, none⟩
        nextTerminal := s.builder.nextTerminal.next }
      terminals := s.terminals.insert name s.builder.nextTerminal } := by
  have precedence : s.terminalPrecedence [⟨"prec", level⟩] = .ok (some p) := by
    simp [terminalPrecedence, bind, Except.bind, pure, Except.pure, known]
  have declared : s.build (.terminal name (some p)) = .ok (s.builder.nextTerminal, { s with
      builder := { s.builder with
        terminals := s.builder.terminals.insert s.builder.nextTerminal
          ⟨s.builder.nextTerminal, some name, some p, none⟩
        nextTerminal := s.builder.nextTerminal.next } }) := by
    simp [build, Builder.call_terminal, valid, fresh]
  rw [statement, precedence]
  change ([_] : List TerminalDefinition).foldlM (declareTerminal (some p)) s = _
  rw [List.foldlM_cons, declareTerminal, declared]
  rfl

/-- Any number of levels is declared. The priority of a level is the number of levels before it,
counted in 16 bits. -/
theorem foldlM_prec (names : List String) (s : Scope) : ∃ precedences,
    (names.map (Statement.prec [])).foldlM statement s = .ok { s with
      precedences, nextPriority := s.nextPriority + .ofNat names.length } ∧
    (∀ other ∉ names, precedences.get? other = s.precedences.get? other) ∧
    ∀ front name back, names = front ++ name :: back → name ∉ back →
      precedences.get? name = some ⟨s.nextPriority + .ofNat front.length, .nonassociative⟩ := by
  induction names generalizing s with
  | nil => exact ⟨s.precedences, by simp; rfl, fun _ _ => rfl, by simp⟩
  | cons first rest ih =>
    obtain ⟨precedences, run, kept, levels⟩ := ih { s with
      precedences := s.precedences.insert first ⟨s.nextPriority, .nonassociative⟩
      nextPriority := s.nextPriority + 1 }
    have following (n : Nat) : s.nextPriority + .ofNat (n + 1) = s.nextPriority + 1 + .ofNat n := by
      rw [Nat.add_comm, UInt16.ofNat_add, UInt16.ofNat_one, UInt16.add_assoc]
    refine ⟨precedences, ?_, fun other absent => ?_, fun front name back split absent => ?_⟩
    · rw [List.map_cons, List.foldlM_cons, List.length_cons, following]
      exact run
    · obtain ⟨different, absent⟩ := not_or.1 fun either => absent (List.mem_cons.2 either)
      rw [kept other absent, OrderedMap.get?_insert, if_neg different]
    · cases front with
      | nil =>
        obtain ⟨rfl, rfl⟩ := List.cons_eq_cons.1 split
        rw [kept first absent, OrderedMap.get?_insert, if_pos rfl]
        simp
      | cons other front =>
        obtain ⟨rfl, rfl⟩ := List.cons_eq_cons.1 split
        rw [levels front name back rfl absent, List.length_cons, following]

end Scope

open Source

def levelNames (n : Nat) : List String := "a" :: List.replicate n "b" ++ ["c"]

def manyLevels (n : Nat) : List Statement :=
  (levelNames n).map (.prec []) ++ [.terminal [⟨"prec", "a"⟩] [⟨"A", none, none⟩],
    .terminal [⟨"prec", "c"⟩] [⟨"C", none, none⟩]]

theorem grouped_manyLevels (n : Nat) : Statement.grouped (manyLevels n) = manyLevels n := by
  simp [manyLevels, levelNames, Statement.grouped, List.range_succ, Statement.group]

theorem terminals_manyLevels (n : Nat) : (Grammar.ofStatements (manyLevels n)).map (fun g =>
    g.terminals.values.map fun t => (t.exportName, t.precedence)) = .ok [(none, none),
      (none, none), (none, none), (some "A", some ⟨0, .nonassociative⟩),
      (some "C", some ⟨0 + .ofNat (n + 1), .nonassociative⟩)] := by
  obtain ⟨precedences, run, -, levels⟩ := Scope.initial.foldlM_prec (levelNames n)
  have first := levels [] "a" (List.replicate n "b" ++ ["c"]) rfl (by simp)
  have last := levels ("a" :: List.replicate n "b") "c" [] rfl (by simp)
  rw [List.length_cons, List.length_replicate] at last
  rw [Grammar.ofStatements, grouped_manyLevels, manyLevels, List.foldlM_append, run]
  change Except.map _ (Except.map _ (List.foldlM Scope.statement _ [_, _])) = _
  rw [List.foldlM_cons, Scope.statement_terminal first (by decide) rfl]
  change Except.map _ (Except.map _ (List.foldlM Scope.statement _ [_])) = _
  rw [List.foldlM_cons, Scope.statement_terminal last (by decide) rfl]
  rfl

/-- Of 65534 terminals one is given an identifier that was given before, and the last of 65537
levels has the priority of the first. -/
theorem numbers_repeat :
    (∀ r ∈ (Builder.initial.declareAll Builder.manyTerminals).1,
      ∃ t, r = .ok (.symbol (.terminal t))) ∧
    ¬ (Builder.reservedTerminals ++ Declared.issued Declared.terminal?
      (Builder.initial.declareAll Builder.manyTerminals).1).Nodup ∧
    (Grammar.ofStatements (manyLevels 65535)).map (fun g =>
      g.terminals.values.map fun t => (t.exportName, t.precedence)) = .ok [(none, none),
        (none, none), (none, none), (some "A", some ⟨0, .nonassociative⟩),
        (some "C", some ⟨0, .nonassociative⟩)] := by
  have declared := Builder.declareAll_manyTerminals
  refine ⟨declared, fun nodup => ?_, terminals_manyLevels 65535⟩
  have few := (Builder.declareAll_issued Builder.manyTerminals).length_le nodup
  rw [Builder.length_issued_terminals declared, Builder.length_declareAll, Builder.manyTerminals,
    List.length_map, Builder.manyNames, List.length_map, List.length_range] at few
  exact absurd few (by decide)

end Lalr
