import Lalr.Grammar.Builder
import Lalr.Iterate

/-! What the operations on a builder do in place. Each of them checks first and changes the
builder afterwards, so that one that fails leaves the builder as it was, and one that succeeds
does what `Steps` says and nothing else. -/
namespace Lalr

namespace Builder

section Calculus

variable (b : Builder)

@[simp] theorem call_pure (a : α) : b.call (pure a) = (.ok a, b) := rfl

@[simp] theorem call_throw (e : DefinitionError) :
    b.call (throw e : Building α) = (.error e, b) := rfl

@[simp] theorem call_get : b.call get = (.ok b, b) := rfl

@[simp] theorem call_modify (f : Builder → Builder) : b.call (modify f) = (.ok (), f b) := rfl

@[simp] theorem call_ite (c : Prop) [Decidable c] (first second : Building α) :
    b.call (if c then first else second) = if c then b.call first else b.call second := by
  split <;> rfl

/-- The second operation meets the builder that the first one leaves. -/
@[simp] theorem call_bind (first : Building α) (second : α → Building β) :
    b.call (first >>= second) = match b.call first with
      | (.ok a, b') => b'.call (second a)
      | (.error e, b') => (.error e, b') := by
  change (ExceptT.bindCont second (first.run.run b).1).run (first.run.run b).2 = _
  unfold call
  rcases first.run.run b with ⟨_ | _, b'⟩ <;> rfl

@[simp] theorem call_map (f : α → β) (operation : Building α) :
    b.call (f <$> operation) = ((b.call operation).1.map f, (b.call operation).2) := by
  rw [← bind_pure_comp, call_bind]
  rcases b.call operation with ⟨_ | _, b'⟩ <;> rfl

end Calculus

section Operations

variable {b b' : Builder} {name code pattern : String} {precedence : Option Precedence}
  {t : TerminalId} {n left : NonterminalId} {r : RuleId} {right : List Symbol}

theorem call_terminal : b.call (.terminal name precedence) =
    if !Text.isSymbolName name then (.error (.invalidTokenName name), b)
    else if b.isExported name then (.error (.alreadyExported name), b)
    else (.ok b.nextTerminal, { b with
      terminals := b.terminals.insert b.nextTerminal ⟨b.nextTerminal, some name, precedence, none⟩
      nextTerminal := b.nextTerminal.next }) := by
  simp [Building.terminal, Except.map]

theorem call_nonterminal : b.call (.nonterminal name) =
    if !Text.isSymbolName name then (.error (.invalidSymbolName name), b)
    else if b.isExported name then (.error (.alreadyExported name), b)
    else (.ok b.nextNonterminal, { b with
      nonterminals := b.nonterminals.insert b.nextNonterminal ⟨b.nextNonterminal, some name⟩
      nextNonterminal := b.nextNonterminal.next }) := by
  simp [Building.nonterminal, Except.map]

theorem call_token : b.call (.token t pattern) =
    if !b.terminals.contains t || t = .endOfInput then (.error .patternOfUndeclared, b)
    else (.ok (), { b with tokens := b.tokens ++ [⟨t, pattern, b.tokens.length⟩] }) := by
  simp [Building.token]

theorem call_terminalAction : b.call (.terminalAction t code) =
    match b.terminals.get? t with
    | none => (.error .unknownTerminal, b)
    | some terminal => (.ok (), { b with
      terminals := b.terminals.insert t { terminal with action := some code } }) := by
  cases known : b.terminals.get? t <;> simp [Building.terminalAction, known]

theorem call_rule : b.call (.rule left right precedence) =
    if left = .start || !b.nonterminals.contains left then (.error .invalidLeftSide, b)
    else if !right.all b.allowsOnRight then (.error .invalidRightSide, b)
    else if b.rules.values.any fun r => r.left = left && r.right.toList = right then
      (.error .duplicateRule, b)
    else (.ok b.nextRule, { b with
      rules := b.rules.insert b.nextRule ⟨b.nextRule, left, right.toArray, precedence, none⟩
      nextRule := b.nextRule.next }) := by
  simp [Building.rule, Except.map]

theorem call_action : b.call (.action r code) =
    match b.rules.get? r with
    | none => (.error .unknownRule, b)
    | some rule => (.ok (), { b with
      rules := b.rules.insert r { rule with action := some code } }) := by
  cases known : b.rules.get? r <;> simp [Building.action, known]

theorem call_startSymbol : b.call (.startSymbol n) =
    if n = .start || !b.nonterminals.contains n then (.error .invalidStart, b)
    else (.ok (), { b with start := some n }) := by
  simp [Building.startSymbol]

end Operations

end Builder

namespace Building

/-- If the operation fails, it leaves the builder as it was. -/
def Atomic (operation : Building α) : Prop :=
  ∀ b e, (Builder.call b operation).1 = .error e → (Builder.call b operation).2 = b

theorem Atomic.map {operation : Building α} (atomic : operation.Atomic) (f : α → β) :
    (f <$> operation : Building β).Atomic := by
  intro b e failed
  rw [Builder.call_map] at failed ⊢
  exact atomic b e (map_eq_error failed)

theorem terminal_atomic (name : String) (precedence : Option Precedence) :
    (terminal name precedence).Atomic := by
  intro b e
  rw [Builder.call_terminal]
  split
  · simp
  · split <;> simp

theorem nonterminal_atomic (name : String) : (nonterminal name).Atomic := by
  intro b e
  rw [Builder.call_nonterminal]
  split
  · simp
  · split <;> simp

theorem token_atomic (t : TerminalId) (pattern : String) : (token t pattern).Atomic := by
  intro b e
  rw [Builder.call_token]
  split <;> simp

theorem terminalAction_atomic (t : TerminalId) (code : String) :
    (terminalAction t code).Atomic := by
  intro b e
  rw [Builder.call_terminalAction]
  split <;> simp

theorem rule_atomic (left : NonterminalId) (right : List Symbol)
    (precedence : Option Precedence) : (rule left right precedence).Atomic := by
  intro b e
  rw [Builder.call_rule]
  split
  · simp
  · split
    · simp
    · split <;> simp

theorem action_atomic (r : RuleId) (code : String) : (action r code).Atomic := by
  intro b e
  rw [Builder.call_action]
  split <;> simp

theorem startSymbol_atomic (n : NonterminalId) : (startSymbol n).Atomic := by
  intro b e
  rw [Builder.call_startSymbol]
  split <;> simp

/-- Each of the ten operations changes the builder only if it succeeds. -/
theorem declare_atomic (d : Declaration) : (declare d).Atomic := by
  cases d with
  | terminal name precedence => exact (terminal_atomic name precedence).map _
  | nonterminal name => exact (nonterminal_atomic name).map _
  | rule left right precedence => exact (rule_atomic left right precedence).map _
  | token t pattern => exact (token_atomic t pattern).map _
  | whitespace pattern => exact (token_atomic .whitespace pattern).map _
  | terminalAction t code => exact (terminalAction_atomic t code).map _
  | action r code => exact (action_atomic r code).map _
  | start n => exact (startSymbol_atomic n).map _
  | header code | footer code => exact fun _ _ failed => nomatch failed

end Building

namespace Builder

structure Admits (b : Builder) (rule : Rule) : Prop where
  left : rule.left ≠ .start
  left_declared : rule.left ∈ b.nonterminals.keys
  right : ∀ X ∈ rule.right.toList, b.allowsOnRight X = true

def exportNames (b : Builder) : List String :=
  b.terminals.values.filterMap (·.exportName) ++ b.nonterminals.values.filterMap (·.exportName)

/-- Everything that a successful step does. -/
inductive Steps (b : Builder) : Declaration → Declared → Builder → Prop where
  | terminal (fresh : name ∉ b.exportNames) :
    Steps b (.terminal name precedence) (.symbol (.terminal b.nextTerminal)) { b with
      terminals := b.terminals.insert b.nextTerminal ⟨b.nextTerminal, some name, precedence, none⟩
      nextTerminal := b.nextTerminal.next }
  | nonterminal (fresh : name ∉ b.exportNames) :
    Steps b (.nonterminal name) (.symbol (.nonterminal b.nextNonterminal)) { b with
      nonterminals := b.nonterminals.insert b.nextNonterminal ⟨b.nextNonterminal, some name⟩
      nextNonterminal := b.nextNonterminal.next }
  | rule (new : ∀ r ∈ b.rules.values, ¬ (r.left = left ∧ r.right.toList = right))
      (admitted : b.Admits ⟨b.nextRule, left, right.toArray, precedence, none⟩) :
    Steps b (.rule left right precedence) (.rule b.nextRule) { b with
      rules := b.rules.insert b.nextRule ⟨b.nextRule, left, right.toArray, precedence, none⟩
      nextRule := b.nextRule.next }
  | token (allowed : t ≠ .endOfInput) (declared : t ∈ b.terminals.keys) :
    Steps b (.token t pattern) .nothing
      { b with tokens := b.tokens ++ [⟨t, pattern, b.tokens.length⟩] }
  | whitespace (declared : .whitespace ∈ b.terminals.keys) :
    Steps b (.whitespace pattern) .nothing
      { b with tokens := b.tokens ++ [⟨.whitespace, pattern, b.tokens.length⟩] }
  | terminalAction (known : b.terminals.get? t = some old) :
    Steps b (.terminalAction t code) .nothing
      { b with terminals := b.terminals.insert t { old with action := some code } }
  | action (known : b.rules.get? r = some old) :
    Steps b (.action r code) .nothing
      { b with rules := b.rules.insert r { old with action := some code } }
  | start (allowed : n ≠ .start ∧ n ∈ b.nonterminals.keys) :
    Steps b (.start n) .nothing { b with start := some n }
  | header : Steps b (.header code) .nothing { b with header := some code }
  | footer : Steps b (.footer code) .nothing { b with footer := some code }

variable {b b' : Builder} {d : Declaration} {x : Declared} {name code pattern : String}
  {precedence : Option Precedence} {t : TerminalId} {n left : NonterminalId} {r : RuleId}
  {right : List Symbol}

theorem isExported_iff : b.isExported name = true ↔ name ∈ b.exportNames := by
  simp [isExported, exportNames]

theorem terminal_cases (declared : b.call (.terminal name precedence) = (.ok t, b')) :
    name ∉ b.exportNames ∧ t = b.nextTerminal ∧ b' = { b with
      terminals := b.terminals.insert t ⟨t, some name, precedence, none⟩
      nextTerminal := t.next } := by
  rw [call_terminal] at declared
  split at declared
  · cases declared
  · split at declared
    · cases declared
    · next fresh =>
      cases declared
      exact ⟨fun member => fresh (isExported_iff.2 member), rfl, rfl⟩

theorem nonterminal_cases (declared : b.call (.nonterminal name) = (.ok n, b')) :
    name ∉ b.exportNames ∧ n = b.nextNonterminal ∧ b' = { b with
      nonterminals := b.nonterminals.insert n ⟨n, some name⟩
      nextNonterminal := n.next } := by
  rw [call_nonterminal] at declared
  split at declared
  · cases declared
  · split at declared
    · cases declared
    · next fresh =>
      cases declared
      exact ⟨fun member => fresh (isExported_iff.2 member), rfl, rfl⟩

theorem token_cases (declared : b.call (.token t pattern) = (.ok (), b')) :
    t ≠ .endOfInput ∧ t ∈ b.terminals.keys ∧
      b' = { b with tokens := b.tokens ++ [⟨t, pattern, b.tokens.length⟩] } := by
  rw [call_token] at declared
  split at declared
  · cases declared
  · next allowed =>
    cases declared
    simp only [Bool.or_eq_true, Bool.not_eq_true', decide_eq_true_eq, not_or,
      Bool.not_eq_false, OrderedMap.contains_iff] at allowed
    exact ⟨allowed.2, allowed.1, rfl⟩

theorem terminalAction_cases (declared : b.call (.terminalAction t code) = (.ok (), b')) :
    ∃ terminal, b.terminals.get? t = some terminal ∧
      b' = { b with terminals := b.terminals.insert t { terminal with action := some code } } := by
  rw [call_terminalAction] at declared
  split at declared
  · cases declared
  · next terminal known =>
    cases declared
    exact ⟨terminal, known, rfl⟩

theorem rule_cases (declared : b.call (.rule left right precedence) = (.ok r, b')) :
    b.Admits ⟨r, left, right.toArray, precedence, none⟩ ∧
      (∀ rule ∈ b.rules.values, ¬ (rule.left = left ∧ rule.right.toList = right)) ∧
      r = b.nextRule ∧ b' = { b with
        rules := b.rules.insert r ⟨r, left, right.toArray, precedence, none⟩
        nextRule := r.next } := by
  rw [call_rule] at declared
  split at declared
  · cases declared
  · next leftAllowed =>
    split at declared
    · cases declared
    · next rightAllowed =>
      split at declared
      · cases declared
      · next new =>
        cases declared
        simp only [Bool.or_eq_true, decide_eq_true_eq, not_or] at leftAllowed
        exact ⟨⟨leftAllowed.1, by simpa using leftAllowed.2, by simpa using rightAllowed⟩,
          fun rule member same => new (List.any_eq_true.2 ⟨rule, member, by simpa using same⟩),
          rfl, rfl⟩

theorem action_cases (declared : b.call (.action r code) = (.ok (), b')) :
    ∃ rule, b.rules.get? r = some rule ∧
      b' = { b with rules := b.rules.insert r { rule with action := some code } } := by
  rw [call_action] at declared
  split at declared
  · cases declared
  · next rule known =>
    cases declared
    exact ⟨rule, known, rfl⟩

theorem startSymbol_cases (declared : b.call (.startSymbol n) = (.ok (), b')) :
    (n ≠ .start ∧ n ∈ b.nonterminals.keys) ∧ b' = { b with start := some n } := by
  rw [call_startSymbol] at declared
  split at declared
  · cases declared
  · next allowed =>
    cases declared
    exact ⟨by simpa using allowed, rfl⟩

/-- What a mapped operation answers, and where it leads, comes from the operation. -/
theorem call_map_eq_ok {f : α → β} {operation : Building α} {y : β}
    (done : b.call (f <$> operation) = (.ok y, b')) :
    ∃ a, b.call operation = (.ok a, b') ∧ f a = y := by
  rw [call_map, Prod.mk.injEq] at done
  obtain ⟨a, answer, same⟩ := map_eq_ok done.1
  exact ⟨a, Prod.ext answer done.2, same⟩

theorem call_map_of_ok {operation : Building α} {a : α} (done : b.call operation = (.ok a, b'))
    (f : α → β) : b.call (f <$> operation) = (.ok (f a), b') := by
  rw [call_map, done]
  rfl

theorem declare_steps (declared : b.declare d = (.ok x, b')) : b.Steps d x b' := by
  cases d with
  | terminal name precedence =>
    obtain ⟨t, done, rfl⟩ := call_map_eq_ok declared
    obtain ⟨fresh, rfl, rfl⟩ := terminal_cases done
    exact .terminal fresh
  | nonterminal name =>
    obtain ⟨n, done, rfl⟩ := call_map_eq_ok declared
    obtain ⟨fresh, rfl, rfl⟩ := nonterminal_cases done
    exact .nonterminal fresh
  | rule left right precedence =>
    obtain ⟨r, done, rfl⟩ := call_map_eq_ok declared
    obtain ⟨admitted, new, rfl, rfl⟩ := rule_cases done
    exact .rule new admitted
  | token t pattern =>
    obtain ⟨⟨⟩, done, rfl⟩ := call_map_eq_ok declared
    obtain ⟨allowed, known, rfl⟩ := token_cases done
    exact .token allowed known
  | whitespace pattern =>
    obtain ⟨⟨⟩, done, rfl⟩ := call_map_eq_ok declared
    obtain ⟨-, known, rfl⟩ := token_cases done
    exact .whitespace known
  | terminalAction t code =>
    obtain ⟨⟨⟩, done, rfl⟩ := call_map_eq_ok declared
    obtain ⟨terminal, known, rfl⟩ := terminalAction_cases done
    exact .terminalAction known
  | action r code =>
    obtain ⟨⟨⟩, done, rfl⟩ := call_map_eq_ok declared
    obtain ⟨rule, known, rfl⟩ := action_cases done
    exact .action known
  | start n =>
    obtain ⟨⟨⟩, done, rfl⟩ := call_map_eq_ok declared
    obtain ⟨allowed, rfl⟩ := startSymbol_cases done
    exact .start allowed
  | header code =>
    cases declared
    exact .header
  | footer code =>
    cases declared
    exact .footer

theorem attempt_eq_ok (done : b.attempt d = .ok b') : ∃ x, b.declare d = (.ok x, b') := by
  unfold attempt at done
  split at done
  · next x b'' declared =>
    cases done
    exact ⟨x, declared⟩
  · cases done

/-- A step that fails leaves the builder as it was. -/
theorem declare_error (failed : b.declare d = (.error e, b')) : b' = b := by
  have kept := Building.declare_atomic d b e (congrArg Prod.fst failed)
  exact (congrArg Prod.snd failed).symm.trans kept

theorem declare_cases (b : Builder) (d : Declaration) :
    (∃ e, b.declare d = (.error e, b)) ∨ ∃ x b', b.declare d = (.ok x, b') := by
  rcases result : b.declare d with ⟨e | x, b'⟩
  · exact .inl ⟨e, by rw [declare_error result]⟩
  · exact .inr ⟨x, b', rfl⟩

end Builder
end Lalr
