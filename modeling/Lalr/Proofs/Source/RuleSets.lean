import Lalr.Source.Scanner
import Mathlib.Computability.Language
import Mathlib.Logic.Relation

/-! Grammar files read by sets of rules. A lexer is in one of five modes, each with its rules in
order. It takes the longest front of the text that a rule matches, by the first rule that matches
it; the rule says what becomes of the text matched so far, in which mode to go on, and whether a
token has been found. -/
namespace Lalr.Source

open Computability

inductive Mode where
  | init
  | pattern
  | code
  | lineComment
  | blockComment
  deriving DecidableEq

inductive Rule where
  | space
  | openLine
  | openBlock
  | openPattern
  | openCode
  | fixed (spelling : List Char) (t : Token)
  | name
  | closePattern
  | escape
  | inPattern
  | closeCode
  | inCode
  | closeLine
  | inLine
  | deeper
  | closeBlock
  | inBlock

/-- What a rule does behind its match, and how many block comments are open then. -/
inductive Effect where
  /-- The next match adds to the text matched so far. -/
  | keep (mode : Mode) (depth : Nat)
  /-- The text matched so far is dropped. -/
  | drop (mode : Mode) (depth : Nat)
  /-- The text matched so far is a token. -/
  | give (t : Token) (mode : Mode) (depth : Nat)

def one (p : Char → Bool) : Language Char := {w | ∃ c, p c = true ∧ w = [c]}

/-- The rules of a mode, those that win first. -/
def Mode.rules : Mode → List Rule
  | init => [.space, .openLine, .openBlock, .openPattern, .openCode] ++
      fixedTokens.map (fun (spelling, t) => .fixed spelling t) ++ [.name]
  | pattern => [.closePattern, .escape, .inPattern]
  | code => [.closeCode, .inCode]
  | lineComment => [.closeLine, .inLine]
  | blockComment => [.deeper, .closeBlock, .inBlock]

namespace Rule

def language : Rule → Language Char
  | space => one isBlank * (one isBlank)∗
  | openLine => {['/', '/']}
  | openBlock | deeper => {['/', '*']}
  | openPattern | closePattern => {['"']}
  | openCode => {['[', '*']}
  | fixed spelling _ => {spelling}
  | name => one Text.isXidStart * (one Text.isXidContinue)∗ + {['_']} * (one Text.isXidContinue)∗
  | escape => {['\\']} * one fun _ => true
  | closeCode => {['*', ']']}
  | closeLine => {['\r']}∗ * {['\n']} + {['\r']}
  | closeBlock => {['*', '/']}
  | inPattern | inCode | inLine | inBlock => one fun _ => true

/-- The effect of a rule where `depth` block comments are open and the text matched so far, with
the match of the rule, is `matched`. -/
def effect (depth : Nat) (matched : List Char) : Rule → Effect
  | space => .drop .init depth
  | openLine => .keep .lineComment depth
  | openBlock => .keep .blockComment (depth + 1)
  | openPattern => .keep .pattern depth
  | openCode => .keep .code depth
  | fixed _ t => .give t .init depth
  | name => .give (.identifier (.ofList matched)) .init depth
  | closePattern => .give (.pattern (.ofList (matched.extract 1 (matched.length - 1)))) .init depth
  | escape | inPattern => .keep .pattern depth
  | closeCode =>
    .give (.code (.ofList (Text.trimmed (matched.extract 2 (matched.length - 2))))) .init depth
  | inCode => .keep .code depth
  | closeLine => .drop .init depth
  | inLine => .drop .lineComment depth
  | deeper => .keep .blockComment (depth + 1)
  | closeBlock => if depth = 1 then .drop .init 0 else .keep .blockComment (depth - 1)
  | inBlock => .drop .blockComment depth

end Rule

open Classical in
/-- In `mode`, `rule` takes `word` off a text: no rule matches a longer front of the text, and no
earlier one matches `word`. -/
structure Takes (mode : Mode) (cs word after : List Char) (rule : Rule) : Prop where
  split : cs = word ++ after
  ne_nil : word ≠ []
  longest : ∀ other ∈ mode.rules, ∀ longer ∈ other.language, longer <+: cs →
    longer.length ≤ word.length
  first : mode.rules.find? (fun other => word ∈ other.language) = some rule

structure State where
  mode : Mode
  /-- The block comments that are open. -/
  depth : Nat
  /-- Where the text matched so far begins. -/
  start : Location
  /-- The text matched so far. -/
  matched : List Char
  rest : List Char

def State.initial (text : String) : State := ⟨.init, 0, {}, [], text.toList⟩

variable {mode mode' : Mode} {rule rule' : Rule} {t : Token} {depth depth' : Nat}
  {cs word word' after after' matched rest : List Char} {s s' : State} {l : Location}
  {token token' : Option Located} {ts ts' : List Located} {fault fault' : Option Location}

def State.behind (s : State) (matched after : List Char) : Effect → Option Located × State
  | .keep mode depth => (none, ⟨mode, depth, s.start, matched, after⟩)
  | .drop mode depth => (none, ⟨mode, depth, s.start.afterAll matched, [], after⟩)
  | .give t mode depth => (some ⟨t, s.start, s.start.afterAll matched⟩,
      ⟨mode, depth, s.start.afterAll matched, [], after⟩)

def Step (s : State) (token : Option Located) (s' : State) : Prop :=
  ∃ word after rule, Takes s.mode s.rest word after rule ∧
    s.behind (s.matched ++ word) after (rule.effect s.depth (s.matched ++ word)) = (token, s')

/-- No rule matches, and the text may not end here. -/
def State.Stuck (s : State) : Prop :=
  (s.mode = .init → s.rest ≠ []) ∧ ∀ word after rule, ¬ Takes s.mode s.rest word after rule

/-- The tokens from a state on, up to the end of the text or to the first place where no rule
matches. The fault is reported where the text matched so far begins. -/
inductive Runs : State → List Located → Option Location → Prop
  | finished {s : State} (mode : s.mode = .init) (rest : s.rest = []) : Runs s [] none
  | stuck {s : State} (stuck : s.Stuck) : Runs s [] (some s.start)
  | step {s s' : State} {token : Option Located} {ts : List Located} {fault : Option Location}
      (step : Step s token s') (runs : Runs s' ts fault) : Runs s (token.toList ++ ts) fault

def State.Reached (text : String) : State → Prop :=
  Relation.ReflTransGen (fun s s' => ∃ token, Step s token s') (.initial text)

/-! ## There is one run -/

theorem Takes.mem (takes : Takes mode cs word after rule) :
    rule ∈ mode.rules ∧ word ∈ rule.language := by
  refine ⟨List.mem_of_find?_eq_some takes.first, ?_⟩
  simpa using List.find?_some takes.first

theorem Takes.unique (first : Takes mode cs word after rule)
    (second : Takes mode cs word' after' rule') : word = word' ∧ after = after' ∧ rule = rule' := by
  have length : word.length = word'.length := by
    have front : word <+: cs := ⟨after, first.split.symm⟩
    have front' : word' <+: cs := ⟨after', second.split.symm⟩
    exact Nat.le_antisymm (second.longest rule first.mem.1 word first.mem.2 front)
      (first.longest rule' second.mem.1 word' second.mem.2 front')
  obtain ⟨rfl, rfl⟩ := List.append_inj (first.split.symm.trans second.split) length
  exact ⟨rfl, rfl, Option.some.inj (first.first.symm.trans second.first)⟩

theorem Step.takes (step : Step s token s') :
    ∃ word after rule, Takes s.mode s.rest word after rule := by
  obtain ⟨word, after, rule, takes, -⟩ := step
  exact ⟨word, after, rule, takes⟩

theorem Step.unique (first : Step s token s') {s'' : State} (second : Step s token' s'') :
    token = token' ∧ s' = s'' := by
  obtain ⟨word, after, rule, takes, behind⟩ := first
  obtain ⟨word', after', rule', takes', behind'⟩ := second
  obtain ⟨rfl, rfl, rfl⟩ := takes.unique takes'
  exact Prod.mk.inj (behind.symm.trans behind')

theorem State.Stuck.no_step (stuck : s.Stuck) : ¬ Step s token s' := fun step =>
  have ⟨word, after, rule, takes⟩ := step.takes
  stuck.2 word after rule takes

theorem Step.rest_ne_nil (step : Step s token s') : s.rest ≠ [] := fun rest =>
  have ⟨_, _, _, takes⟩ := step.takes
  takes.ne_nil (List.append_eq_nil_iff.1 (takes.split.symm.trans rest)).1

theorem Runs.unique (first : Runs s ts fault) (second : Runs s ts' fault') :
    ts = ts' ∧ fault = fault' := by
  induction first generalizing ts' fault' with
  | finished mode rest =>
    cases second with
    | finished => exact ⟨rfl, rfl⟩
    | stuck stuck => exact absurd rest (stuck.1 mode)
    | step step => exact absurd rest step.rest_ne_nil
  | stuck stuck =>
    cases second with
    | finished mode rest => exact absurd rest (stuck.1 mode)
    | stuck => exact ⟨rfl, rfl⟩
    | step step => exact absurd step stuck.no_step
  | step step _ ih =>
    cases second with
    | finished mode rest => exact absurd rest step.rest_ne_nil
    | stuck stuck => exact absurd step stuck.no_step
    | step step' runs =>
      obtain ⟨rfl, rfl⟩ := step.unique step'
      obtain ⟨rfl, rfl⟩ := ih runs
      exact ⟨rfl, rfl⟩

/-! ## Comments that are open -/

def Rule.home : Rule → Mode
  | space | openLine | openBlock | openPattern | openCode | fixed _ _ | name => .init
  | closePattern | escape | inPattern => .pattern
  | closeCode | inCode => .code
  | closeLine | inLine => .lineComment
  | deeper | closeBlock | inBlock => .blockComment

theorem home_of_mem (member : rule ∈ mode.rules) : rule.home = mode := by
  cases mode with
  | init =>
    simp only [Mode.rules, List.mem_append, List.mem_map, List.mem_cons, List.not_mem_nil,
      or_false] at member
    rcases member with ((rfl | rfl | rfl | rfl | rfl) | ⟨_, _, rfl⟩) | rfl <;> rfl
  | pattern | code | lineComment | blockComment =>
    simp only [Mode.rules, List.mem_cons, List.not_mem_nil, or_false] at member
    rcases member with rfl | rfl | rfl <;> rfl

/-- Block comments are open in the mode for them and in no other. -/
def State.Counted (s : State) : Prop :=
  (s.mode ≠ .blockComment → s.depth = 0) ∧ (s.mode = .blockComment → 1 ≤ s.depth)

theorem Step.counted (step : Step s token s') (counted : s.Counted) : s'.Counted := by
  obtain ⟨word, after, rule, takes, behind⟩ := step
  obtain rfl : _ = s' := congrArg Prod.snd behind
  obtain ⟨closed, opened⟩ := counted
  rw [← home_of_mem takes.mem.1] at closed opened
  cases rule with
  | closeBlock =>
    have opened : 1 ≤ s.depth := opened rfl
    by_cases last : s.depth = 1
    · simp [State.behind, Rule.effect, last, State.Counted]
    · have outer : 1 ≤ s.depth - 1 := by omega
      simp [State.behind, Rule.effect, last, State.Counted, outer]
  | openBlock | deeper => exact ⟨fun other => absurd rfl other, fun _ => Nat.le_add_left ..⟩
  | inBlock => exact ⟨fun other => absurd rfl other, fun _ => opened rfl⟩
  | _ => exact ⟨fun _ => closed nofun, nofun⟩

theorem State.Reached.counted {text : String} (reached : s.Reached text) : s.Counted := by
  induction reached with
  | refl => exact ⟨fun _ => rfl, nofun⟩
  | tail _ step ih =>
    obtain ⟨token, step⟩ := step
    exact step.counted ih

end Lalr.Source
