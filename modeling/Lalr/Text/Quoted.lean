import Lalr.Text.Basic
import Lalr.Text.Ranges

/-! String literals of generated code. -/
namespace Lalr.Text

/-- Characters that combine with the one before them. The halfwidth sound marks are seen on
their own. -/
def isCombining (c : Char) : Bool :=
  graphemeExtendRanges.contains c.toNat && c.toNat != 0xFF9E && c.toNat != 0xFF9F

/-- Characters of names that came with Unicode 18.0. They are not known to be printable. -/
def isNewest (c : Char) : Bool :=
  newestStartRanges.contains c.toNat || newestContinueOnlyRanges.contains c.toNat

def isObscure (c : Char) : Bool := isCombining c || ignorableRanges.contains c.toNat || isNewest c

/-- Quotes, backslashes, control characters and obscure characters are escaped. -/
def escapedChar (c : Char) : String :=
  if c = '"' then "\\\""
  else if c = '\\' then "\\\\"
  else if c = '\n' then "\\n"
  else if c = '\r' then "\\r"
  else if c = '\t' then "\\t"
  else if c.toNat = 0 then "\\0"
  else if c.toNat < 32 ∨ c.toNat = 127 ∨ isObscure c then
    "\\u\x7b" ++ hexadecimal c.toNat ++ "\x7d"
  else c.toString

def quoted (s : String) : String := "\"" ++ String.join (s.toList.map escapedChar) ++ "\""

end Lalr.Text
