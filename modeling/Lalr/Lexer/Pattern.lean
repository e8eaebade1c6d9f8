import Lalr.Lexer.ByteSet

/-! Token patterns: regular expressions over bytes. -/
namespace Lalr.Lexer

inductive Pattern where
  /-- One byte of a set. -/
  | bytes (set : ByteSet)
  | cat (parts : List Pattern)
  | alt (branches : List Pattern)
  | star (body : Pattern)
  | plus (body : Pattern)
  | opt (body : Pattern)

namespace Pattern

def concat : List Pattern → Pattern
  | [p] => p
  | parts => cat parts

def choice : List Pattern → Pattern
  | [p] => p
  | branches => alt branches

def byte (b : UInt8) : Pattern := bytes (.singleton b)

/-- A character stands for the bytes of its UTF-8 encoding. -/
def literal (c : Char) : Pattern := concat ((String.utf8EncodeChar c).map byte)

end Pattern
end Lalr.Lexer
