/-! What can be wrong with the text of a pattern. -/
namespace Lalr.Lexer

inductive PatternFault where
  | emptyPattern
  | emptyAlternative
  | unbalancedClose
  | unclosedGroup
  /-- A repetition operator that follows nothing. -/
  | followsNothing (operator : Char)
  | hexDigits
  | trailingBackslash
  | unclosedClass
  | emptyClass
  | nonAsciiInClass
  | invalidRangeBound
  | rangeOutOfOrder
  deriving DecidableEq, Repr

def PatternFault.text : PatternFault → String
  | emptyPattern => "empty pattern"
  | emptyAlternative => "empty alternative"
  | unbalancedClose => "unbalanced `)'"
  | unclosedGroup => "unclosed group"
  | followsNothing operator => "`" ++ operator.toString ++ "' follows nothing"
  | hexDigits => "`\\x' requires two hex digits"
  | trailingBackslash => "trailing backslash"
  | unclosedClass => "unclosed character class"
  | emptyClass => "empty character class"
  | nonAsciiInClass => "non-ASCII character in class"
  | invalidRangeBound => "invalid range bound"
  | rangeOutOfOrder => "range out of order"

structure PatternError where
  position : Nat
  fault : PatternFault
  deriving DecidableEq, Repr

def PatternError.message (e : PatternError) : String :=
  "invalid pattern at offset " ++ toString e.position ++ ": " ++ e.fault.text

end Lalr.Lexer
