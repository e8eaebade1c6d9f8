import Lalr.Lexer.PatternLexeme

/-! Patterns from their text. The lexemes are taken one at a time; open groups are kept on a
stack. -/
namespace Lalr.Lexer

/-- A choice in the making: the finished branches, and the parts of the current one. -/
structure Level where
  branches : List Pattern := []
  parts : List Pattern := []

/-- The choice being read, and the groups around it with the offsets of their parentheses,
the innermost first. -/
structure Assembly where
  level : Level := {}
  enclosing : List (Nat × Level) := []

namespace Level

def add (l : Level) (p : Pattern) : Level := { l with parts := l.parts ++ [p] }

def repeatLast (l : Level) (r : Repetition) : Option Level :=
  l.parts.getLast?.map fun p => { l with parts := l.parts.dropLast ++ [r.apply p] }

def finishBranch (l : Level) : Option (List Pattern) :=
  if l.parts.isEmpty then none else some (l.branches ++ [.concat l.parts])

end Level

namespace Assembly

def feed (a : Assembly) : Lexeme → Except PatternError Assembly
  | .atom p => .ok { a with level := a.level.add p }
  | .repetition r offset =>
    match a.level.repeatLast r with
    | some level => .ok { a with level }
    | none => .error ⟨offset, .followsNothing r.operator⟩
  | .openGroup offset => .ok ⟨{}, (offset, a.level) :: a.enclosing⟩
  | .bar offset =>
    match a.level.finishBranch with
    | some branches => .ok { a with level := ⟨branches, []⟩ }
    | none => .error ⟨offset, .emptyAlternative⟩
  | .closeGroup offset =>
    match a.level.finishBranch with
    | none => .error ⟨offset, .emptyAlternative⟩
    | some branches =>
      match a.enclosing with
      | [] => .error ⟨offset, .unbalancedClose⟩
      | (_, outer) :: enclosing => .ok ⟨outer.add (.choice branches), enclosing⟩
  | .fault e => .error e

def finish (a : Assembly) (length : Nat) : Except PatternError Pattern :=
  match a.level.finishBranch with
  | none => .error ⟨length, .emptyAlternative⟩
  | some branches =>
    match a.enclosing with
    | [] => .ok (.choice branches)
    | (opened, _) :: _ => .error ⟨opened, .unclosedGroup⟩

end Assembly

def Pattern.parse (source : String) : Except PatternError Pattern :=
  if source.isEmpty then .error ⟨0, .emptyPattern⟩
  else do
    let a ← (lexemes { ahead := source.toList }).foldlM Assembly.feed {}
    a.finish source.utf8ByteSize

end Lalr.Lexer
