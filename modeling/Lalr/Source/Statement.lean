/-! Statements of grammar files. -/
namespace Lalr.Source

structure Setting where
  key : String
  value : String
  deriving DecidableEq, Repr

structure TerminalDefinition where
  name : String
  pattern : Option String
  action : Option String
  deriving DecidableEq, Repr

inductive Element where
  | name (s : String)
  /-- `@error` -/
  | error
  deriving DecidableEq, Repr

/-- One alternative of a rule. `@empty` has no elements. -/
structure Production where
  settings : List Setting
  elements : List Element
  action : Option String
  deriving DecidableEq, Repr

inductive CodePlace where
  | header
  | footer
  deriving DecidableEq, Repr

inductive Statement where
  | prec (settings : List Setting) (name : String)
  | terminal (settings : List Setting) (definitions : List TerminalDefinition)
  | whitespace (patterns : List String)
  | nonterminal (names : List String)
  | start (name : String)
  | rule (left : String) (productions : List Production)
  | code (place : CodePlace) (text : String)
  deriving DecidableEq, Repr

end Lalr.Source
