import Lalr.Proofs.Grammar.Tree
import Lalr.Proofs.Table.Cells

/-! The parser that a parse table drives: a stack of states above the first one, a lookahead, and
one action at a time. -/
namespace Lalr

/-- The action for a lookahead. Without a cell it is the default reduction, if these are
taken. -/
def Row.action (row : Row) (defaults : Bool) (t : TerminalId) : Action :=
  match row.actions.get? t with
  | some action => action
  | none =>
    match defaults, row.defaultReduce with
    | true, some r => .reduce r
    | _, _ => .error

theorem Row.action_of_cell {row : Row} {t : TerminalId} {action : Action}
    (there : row.actions.get? t = some action) (defaults : Bool) :
    row.action defaults t = action := by
  unfold Row.action
  rw [there]

/-- An action of a cell is one of its candidates; a default reduction is one of another cell. -/
theorem Row.Chooses.action_cases {g : Grammar} {s : State} {row : Row} (chooses : row.Chooses g s)
    (defaults : Bool) (t : TerminalId) :
    (∃ k, s.next (.terminal t) = some k ∧ row.action defaults t = .shift k) ∨
    (∃ r u, s.Finished g r u ∧ r ≠ .accept ∧ row.action defaults t = .reduce r) ∨
    (s.Finished g .accept t ∧ row.action defaults t = .accept) ∨
    row.action defaults t = .error := by
  have rule {u : TerminalId} {r : RuleId} (there : row.actions.get? u = some (.reduce r)) :
      s.Finished g r u ∧ r ≠ .accept := by
    rcases chooses.action u _ there with ⟨k, -, eq⟩ | ⟨r', finished, eq⟩ | eq
    · cases eq
    · obtain ⟨rfl, other⟩ := Candidates.ofRule_eq_reduce eq.symm
      exact ⟨finished, other⟩
    · cases eq
  unfold Row.action
  cases there : row.actions.get? t with
  | none =>
    dsimp only
    split
    · next r chosen =>
      obtain ⟨u, other⟩ := chooses.default r chosen
      exact .inr (.inl ⟨r, u, (rule other).1, (rule other).2, rfl⟩)
    · exact .inr (.inr (.inr rfl))
  | some action =>
    rcases chooses.action t action there with ⟨k, edge, rfl⟩ | ⟨r, finished, rfl⟩ | rfl
    · exact .inl ⟨k, edge, rfl⟩
    · by_cases accepts : r = .accept
      · subst accepts
        exact .inr (.inr (.inl ⟨finished, rfl⟩))
      · exact .inr (.inl ⟨r, t, finished, accepts, if_neg accepts⟩)
    · exact .inr (.inr (.inr rfl))

/-- Only an edge is shifted along, with or without default reductions. -/
theorem Row.Chooses.edge_of_shift {g : Grammar} {s : State} {row : Row}
    (chooses : row.Chooses g s) {defaults : Bool} {t : TerminalId} {k : Nat}
    (shift : row.action defaults t = .shift k) : s.next (.terminal t) = some k := by
  rcases chooses.action_cases defaults t with
    ⟨k', edge, eq⟩ | ⟨r, -, -, -, eq⟩ | ⟨-, eq⟩ | eq
  · cases eq.symm.trans shift
    exact edge
  all_goals cases eq.symm.trans shift

/-- Only where the accepting rule is finished the input is accepted. -/
theorem Row.Chooses.finished_of_accept {g : Grammar} {s : State} {row : Row}
    (chooses : row.Chooses g s) {defaults : Bool} {t : TerminalId}
    (accepts : row.action defaults t = .accept) : s.Finished g .accept t := by
  rcases chooses.action_cases defaults t with
    ⟨k, -, eq⟩ | ⟨r, -, -, -, eq⟩ | ⟨finished, -⟩ | eq
  case inr.inr.inl => exact finished
  all_goals cases eq.symm.trans accepts

namespace Driver

/-- The states above the first one with the last on top, the terminals still to be read, and the
rules reduced by so far. -/
structure Configuration where
  above : List Nat
  input : List TerminalId
  reduced : List RuleId
  deriving DecidableEq

namespace Configuration

def initial (w : List TerminalId) : Configuration := ⟨[], w, []⟩

def top (c : Configuration) : Nat := c.above.head?.getD 0

def lookahead (c : Configuration) : TerminalId := c.input.head?.getD .endOfInput

end Configuration

inductive Fault where
  | unknownRule
  /-- A reduction by more symbols than there are states above the first one. -/
  | underflow
  | noGoto
  deriving DecidableEq

inductive Outcome where
  | next (c : Configuration)
  | accepted
  | rejected
  | fault (f : Fault)
  deriving DecidableEq

/-- Replace the states of a right-hand side by that of the left-hand side. -/
def reduce (g : Grammar) (table : ParseTable) (r : RuleId) (c : Configuration) : Outcome :=
  match g.rule? r with
  | none => .fault .unknownRule
  | some rule =>
    if c.above.length < rule.right.size then .fault .underflow
    else
      let below := { c with above := c.above.drop rule.right.size }
      match table.rows[below.top]?.bind fun row => row.gotos.get? rule.left with
      | none => .fault .noGoto
      | some i => .next { below with above := i :: below.above, reduced := c.reduced ++ [r] }

def step (g : Grammar) (table : ParseTable) (defaults : Bool) (c : Configuration) : Outcome :=
  match table.rows[c.top]? with
  | none => .rejected
  | some row =>
    match row.action defaults c.lookahead with
    | .shift i => .next { c with above := i :: c.above, input := c.input.tail }
    | .reduce r => reduce g table r c
    | .accept => .accepted
    | .error => .rejected

def Reaches (g : Grammar) (table : ParseTable) (defaults : Bool) :
    Configuration → Configuration → Prop :=
  Relation.ReflTransGen fun c c' => step g table defaults c = .next c'

variable {g : Grammar} {table : ParseTable} {a : Automaton} {defaults : Bool}
  {c c' : Configuration} {i : Nat} {s : State} {row : Row} {above : List Nat}
  {symbols : List Symbol} {t : TerminalId} {r : RuleId} {rule : Rule}

def run (g : Grammar) (table : ParseTable) (defaults : Bool) : Nat → Configuration → Configuration
  | 0, c => c
  | n + 1, c =>
    match step g table defaults c with
    | .next c' => run g table defaults n c'
    | _ => c

theorem reaches_run (n : Nat) (c : Configuration) :
    Reaches g table defaults c (run g table defaults n c) := by
  induction n generalizing c with
  | zero => exact .refl
  | succ n ih =>
    unfold run
    split
    · next c' move => exact .head move (ih c')
    · exact .refl

/-- The parser does one thing at a time: of two configurations that are reached, one is reached
from the other. -/
theorem Reaches.total {c₁ c₂ : Configuration} (first : Reaches g table defaults c c₁)
    (second : Reaches g table defaults c c₂) :
    Reaches g table defaults c₁ c₂ ∨ Reaches g table defaults c₂ c₁ := by
  refine Relation.ReflTransGen.total_of_right_unique ?_ first second
  intro x y z left right
  exact Outcome.next.inj (left.symm.trans right)

/-- Only one configuration is accepted. -/
theorem Reaches.eq_of_accepted {c₁ c₂ : Configuration} (first : Reaches g table defaults c c₁)
    (second : Reaches g table defaults c c₂) (done : step g table defaults c₁ = .accepted)
    (done' : step g table defaults c₂ = .accepted) : c₁ = c₂ := by
  have last {x y : Configuration} (path : Reaches g table defaults x y)
      (done : step g table defaults x = .accepted) : x = y := by
    rcases Relation.ReflTransGen.cases_head path with eq | ⟨z, move, -⟩
    · exact eq
    · rw [done] at move
      cases move
  rcases first.total second with path | path
  · exact last path done
  · exact (last path done').symm

/-- The states lie on the path that the symbols label, both with the last on top. -/
def Spells (a : Automaton) : List Nat → List Symbol → Prop
  | [], [] => True
  | i :: above, X :: symbols => a.walk (X :: symbols).reverse = some i ∧ Spells a above symbols
  | _, _ => False

theorem Spells.length_eq : {above : List Nat} → {symbols : List Symbol} →
    Spells a above symbols → above.length = symbols.length
  | [], [], _ => rfl
  | _ :: _, _ :: _, h => congrArg (· + 1) h.2.length_eq

theorem Spells.walk (h : Spells a above symbols) :
    a.walk symbols.reverse = some (above.head?.getD 0) := by
  cases above with
  | nil =>
    cases symbols with
    | nil => rfl
    | cons X symbols => exact h.elim
  | cons i above =>
    cases symbols with
    | nil => exact h.elim
    | cons X symbols => exact h.1

theorem Spells.drop : {above : List Nat} → {front back : List Symbol} →
    Spells a above (front ++ back) → Spells a (above.drop front.length) back
  | _, [], _, h => h
  | _ :: _, _ :: _, _, h => h.2.drop

end Driver
end Lalr
