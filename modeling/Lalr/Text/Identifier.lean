import Lalr.Text.Ranges

/-! Characters of identifiers, by the Unicode properties XID_Start and XID_Continue. Grammar
files are read by Unicode 13.0; a name given to a symbol may also use what came later, until
Unicode 18.0. No text is normalized. -/
namespace Lalr.Text

def isAsciiLetter (c : Char) : Bool :=
  (65 ≤ c.toNat && c.toNat ≤ 90) || (97 ≤ c.toNat && c.toNat ≤ 122)

def isAsciiDigit (c : Char) : Bool := 48 ≤ c.toNat && c.toNat ≤ 57

def isXidStart (c : Char) : Bool :=
  if c.toNat < 128 then isAsciiLetter c else startRanges.contains c.toNat

def isXidContinue (c : Char) : Bool :=
  if c.toNat < 128 then isAsciiLetter c || isAsciiDigit c || c == '_'
  else startRanges.contains c.toNat || continueOnlyRanges.contains c.toNat

/-- Identifiers also start with an underscore. -/
def isIdentifierStart (c : Char) : Bool := c == '_' || isXidStart c

/-- Characters of XID_Start since Unicode 14.0. -/
def isLaterStart (c : Char) : Bool :=
  laterStartRanges.contains c.toNat || newestStartRanges.contains c.toNat

def isNameStart (c : Char) : Bool := isIdentifierStart c || isLaterStart c

def isNameContinue (c : Char) : Bool :=
  isXidContinue c || isLaterStart c || laterContinueOnlyRanges.contains c.toNat ||
    newestContinueOnlyRanges.contains c.toNat

end Lalr.Text
