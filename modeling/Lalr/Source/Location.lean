import Lalr.Text.Ranges

/-! Places in a grammar file. -/
namespace Lalr.Text

/-- The number of columns a character takes, by UAX #11 outside East Asian contexts. Control
characters take one column like any other ASCII character. The Khmer sign beyyal is as wide as the
three letters that it stands for. -/
def width (c : Char) : Nat :=
  if c.toNat < 128 then 1
  else if zeroWidthRanges.contains c.toNat then 0
  else if wideRanges.contains c.toNat then 2
  else if c.toNat = 0x17D8 then 3
  else 1

end Lalr.Text

namespace Lalr.Source

/-- Line, column and byte offset, all counted from zero. -/
structure Location where
  line : Nat := 0
  column : Nat := 0
  offset : Nat := 0
  deriving DecidableEq, Repr, Inhabited

namespace Location

/-- The location behind `c`. A tab takes four columns. -/
def after (l : Location) (c : Char) : Location :=
  if c = '\n' then ⟨l.line + 1, 0, l.offset + 1⟩
  else if c = '\t' then ⟨l.line, l.column + 4, l.offset + 1⟩
  else ⟨l.line, l.column + Text.width c, l.offset + c.utf8Size⟩

def afterAll (l : Location) (cs : List Char) : Location := cs.foldl after l

/-- `line:column`, both counted from one. -/
def text (l : Location) : String := toString (l.line + 1) ++ ":" ++ toString (l.column + 1)

@[simp] theorem afterAll_nil (l : Location) : l.afterAll [] = l := rfl

@[simp] theorem afterAll_append (l : Location) (cs ds : List Char) :
    l.afterAll (cs ++ ds) = (l.afterAll cs).afterAll ds := List.foldl_append

theorem offset_after (l : Location) (c : Char) : (l.after c).offset = l.offset + c.utf8Size := by
  unfold after
  split
  next h => subst h; rfl
  split
  next h => subst h; rfl
  rfl

theorem offset_afterAll (l : Location) (cs : List Char) :
    (l.afterAll cs).offset = l.offset + (String.ofList cs).utf8ByteSize := by
  induction cs generalizing l with
  | nil => rfl
  | cons c cs ih =>
    have behind : (l.afterAll (c :: cs)).offset = _ := ih (l.after c)
    rw [behind, offset_after, String.ofList_cons, String.utf8ByteSize_append,
      String.utf8ByteSize_singleton, Nat.add_assoc]

end Location
end Lalr.Source
