import Lalr.Text.Identifier

/-! Templates: text with placeholders of the form `##NAME##`. -/
namespace Lalr.Emit

inductive Placeholder where
  | header
  | footer
  | tables
  | dfa
  | labels
  | terminalActions
  | actions
  | errorToken
  | endOfInput
  | whitespace
  deriving DecidableEq, Repr

namespace Placeholder

def all : List Placeholder :=
  [header, footer, tables, dfa, labels, terminalActions, actions, errorToken, endOfInput,
    whitespace]

def name : Placeholder → String
  | header => "HEADER"
  | footer => "FOOTER"
  | tables => "TABLES"
  | dfa => "DFA"
  | labels => "LABELS"
  | terminalActions => "TERMINAL_ACTIONS"
  | actions => "ACTIONS"
  | errorToken => "ERROR_TOKEN"
  | endOfInput => "EOF"
  | whitespace => "WHITESPACE"

def upper (c : Char) : Char :=
  if 97 ≤ c.toNat ∧ c.toNat ≤ 122 then Char.ofNat (c.toNat - 32) else c

/-- The placeholder of a name, in any mixture of cases. -/
def ofName? (name : List Char) : Option Placeholder :=
  all.find? fun p => p.name.toList == name.map upper

end Placeholder

inductive Segment where
  | char (c : Char)
  | placeholder (p : Placeholder)
  deriving DecidableEq, Repr

def isNameChar (c : Char) : Bool := Text.isAsciiLetter c || c == '_'

/-- A placeholder, read from behind its first two `#`, and what follows it. -/
def placeholder? (cs : List Char) : Option (Placeholder × List Char) :=
  let name := cs.takeWhile isNameChar
  match cs.drop name.length with
  | '#' :: '#' :: rest => (Placeholder.ofName? name).map (·, rest)
  | _ => none

theorem placeholder?_length {cs rest : List Char} {p : Placeholder}
    (h : placeholder? cs = some (p, rest)) : rest.length < cs.length := by
  unfold placeholder? at h
  dsimp only at h
  split at h
  next r hr =>
    simp only [Option.map_eq_some_iff, Prod.mk.injEq] at h
    obtain ⟨_, _, _, rfl⟩ := h
    have := congrArg List.length hr
    simp only [List.length_drop, List.length_cons] at this
    omega
  next => simp at h

/-- The parts of a template. Where two `#` begin no known placeholder, they are text, and
reading goes on behind them. -/
def segments (cs : List Char) : List Segment :=
  match cs with
  | '#' :: '#' :: after =>
    match _h : placeholder? after with
    | some (p, rest) => .placeholder p :: segments rest
    | none => .char '#' :: .char '#' :: segments after
  | c :: rest => .char c :: segments rest
  | [] => []
termination_by cs.length
decreasing_by
  · have := placeholder?_length _h
    simp only [List.length_cons]; omega
  · simp only [List.length_cons]; omega
  · simp

end Lalr.Emit
