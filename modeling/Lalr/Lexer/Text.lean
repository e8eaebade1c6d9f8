import Lalr.Grammar.Basic
import Lalr.Lexer.Minimal
import Lalr.Lexer.Subset
import Lalr.Text.Basic

/-! Byte automata as readable text. -/
namespace Lalr.Lexer

/-- A byte as an ASCII escape: quotes, backslash, tab and line ends by letter, other bytes
that are not printable as two hexadecimal digits. -/
def byteText (b : UInt8) : String :=
  let n := b.toNat
  if n = 9 then "\\t"
  else if n = 10 then "\\n"
  else if n = 13 then "\\r"
  else if n = 34 then "\\\""
  else if n = 39 then "\\'"
  else if n = 92 then "\\\\"
  else if 32 ≤ n ∧ n < 127 then (Char.ofNat n).toString
  else "\\x" ++ Text.hexadecimal (n / 16) ++ Text.hexadecimal (n % 16)

/-- For instance `[0-9A-Z_]`. -/
def ByteSet.text (s : ByteSet) : String :=
  "[" ++ String.join ((ByteSet.runs s.toList).map fun (lo, hi) =>
    if lo = hi then byteText lo else byteText lo ++ "-" ++ byteText hi) ++ "]"

def nfaStateName (i : Nat) : String := "N#" ++ Text.paddedDecimal 3 i

def dfaStateName (i : Nat) : String := "D#" ++ Text.paddedDecimal 3 i

def className (k : Nat) : String := "ClassID(" ++ toString k ++ ")"

def stateHeading (g : Grammar) (name : String) (accept : Option TerminalId) : String :=
  "\n#### State " ++ name ++
    (match accept with
      | some t => " (accept " ++ g.terminalName t ++ ")"
      | none => "") ++ "\n"

def Nfa.text (g : Grammar) (nfa : Nfa) : String :=
  let state := fun (s : NfaState) (i : Nat) =>
    stateHeading g (nfaStateName i) (s.accept.map (·.terminal)) ++
      String.join (s.edges.map fun (label, j) =>
        "- " ++ label.text ++ " => " ++ nfaStateName j ++ "\n") ++
      String.join (s.epsilons.map fun j => "- (eps) => " ++ nfaStateName j ++ "\n")
  "## starts:" ++ String.join (nfa.starts.map fun i => " " ++ nfaStateName i) ++ "\n" ++
    String.join (nfa.states.toList.zipIdx.map fun (s, i) => state s i)

def listedBytes : Nat := 16

def Dfa.text (g : Grammar) (d : Dfa) : String :=
  let byteClass := fun (k : Nat) =>
    let bytes := d.classes.bytes k
    "- " ++ className k ++ " =" ++
      String.join ((bytes.take listedBytes).map fun b => " " ++ byteText b) ++
      (if listedBytes < bytes.length then " ..." else "") ++ "\n"
  let state := fun (s : DfaState) (i : Nat) =>
    stateHeading g (dfaStateName i) s.accept ++
      String.join (s.transitions.toList.map fun (k, j) =>
        "- " ++ className k ++ " => " ++ dfaStateName j ++ "\n")
  "## classes:\n" ++ String.join (d.classes.toList.map byteClass) ++
    String.join (d.states.toList.zipIdx.map fun (s, i) => state s i)

end Lalr.Lexer
