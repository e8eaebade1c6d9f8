import Lalr.Source.Location

/-! Tokens of grammar files. -/
namespace Lalr.Source

inductive Keyword where
  | terminal
  | whitespace
  | nonterminal
  | start
  | rule
  | prec
  | empty
  | error
  | header
  | footer
  deriving DecidableEq, Repr

namespace Keyword

def all : List Keyword :=
  [terminal, whitespace, nonterminal, start, rule, prec, empty, error, header, footer]

def word : Keyword → String
  | terminal => "terminal"
  | whitespace => "whitespace"
  | nonterminal => "nonterminal"
  | start => "start"
  | rule => "rule"
  | prec => "prec"
  | empty => "empty"
  | error => "error"
  | header => "header"
  | footer => "footer"

end Keyword

inductive Token where
  | openBrace
  | closeBrace
  /-- `@{` -/
  | openConfig
  /-- `:=` -/
  | define
  | equals
  | comma
  | semicolon
  | bar
  | keyword (k : Keyword)
  | identifier (name : String)
  /-- What stands between the double quotes, escapes included. -/
  | pattern (source : String)
  /-- What stands between `[*` and `*]`, without surrounding white space. -/
  | code (text : String)
  deriving DecidableEq, Repr

def Token.description : Token → String
  | openBrace => "`\x7b'"
  | closeBrace => "`\x7d'"
  | openConfig => "`@\x7b'"
  | define => "`:='"
  | equals => "`='"
  | comma => "`,'"
  | semicolon => "`;'"
  | bar => "`|'"
  | keyword k => "keyword `@" ++ k.word ++ "'"
  | identifier name => "identifier `" ++ name ++ "'"
  | pattern _ => "pattern"
  | code _ => "code block"

/-- A token with the locations of its first character and behind its last one. -/
structure Located where
  token : Token
  first : Location
  last : Location
  deriving DecidableEq, Repr

end Lalr.Source
