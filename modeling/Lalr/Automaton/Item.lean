import Lalr.Grammar.Text

/-! LR items: a rule and how much of its right-hand side has been read. -/
namespace Lalr

structure Item where
  rule : RuleId
  /-- The number of symbols in front of the marker. Moving it counts in 16 bits. -/
  marker : Nat
  deriving DecidableEq, Repr, Inhabited

namespace Item

instance : Ord Item := ⟨compareLex (compareOn rule) (compareOn marker)⟩

instance : Std.TransOrd Item :=
  inferInstanceAs (Std.TransCmp (compareLex (compareOn rule) (compareOn marker)))

instance : Std.LawfulEqOrd Item where
  eq_of_compare {a b} h := by
    change (compare a.rule b.rule).then (compare a.marker b.marker) = .eq at h
    rw [Ordering.then_eq_eq] at h
    cases a; cases b
    simpa using And.intro (Std.LawfulEqOrd.eq_of_compare h.1) (Std.LawfulEqOrd.eq_of_compare h.2)

def initial : Item := ⟨.accept, 0⟩

def nextSymbol (g : Grammar) (i : Item) : Option Symbol :=
  (g.rule? i.rule).bind fun rule => rule.right[i.marker]?

/-- The item with one more symbol read. Nothing keeps the marker from running over. -/
def advance (i : Item) : Item := { i with marker := (i.marker + 1) % UInt16.size }

/-- For instance `Sum -> [ Sum . PLUS Term ]`. A marker past the end is not shown. -/
def text (g : Grammar) (i : Item) : String :=
  match g.rule? i.rule with
  | none => "<unknown>"
  | some rule =>
    let symbol := fun (s : Symbol) (k : Nat) =>
      (if k = i.marker then " ." else "") ++ " " ++ g.symbolName s
    g.nonterminalName rule.left ++ " -> [" ++
      String.join (rule.right.toList.zipIdx.map fun (s, k) => symbol s k) ++
      (if rule.right.size = i.marker then " ." else "") ++ " ]"

end Item

def Grammar.items (g : Grammar) : List Item :=
  g.rules.values.flatMap fun rule =>
    (List.range (rule.right.size + 1)).map fun marker => ⟨rule.id, marker⟩

end Lalr
