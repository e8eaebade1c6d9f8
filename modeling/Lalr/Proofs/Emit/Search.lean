import Lalr.Proofs.Driver.Machine
import Lalr.Proofs.Emit.Arrays
import Lalr.Proofs.Lexer.Indexed

/-! What the emitted driver looks up in its arrays. Rows of actions and gotos are searched by
halving, which finds what a row holds because the row is strictly ascending; transitions of the
lexer are searched from the front. -/
namespace Lalr.Emit

section Bisect

variable {κ α : Type} [Ord κ] {row : List (κ × α)} {k : κ} {a : α} {lo hi : Nat}

def Ascending (row : List (κ × α)) : Prop := row.Pairwise (compare ·.1 ·.1 = .lt)

/-- Halve the window from `lo` up to `hi` until the entry in its middle is that of `k`. -/
def bisect (row : List (κ × α)) (k : κ) (lo hi : Nat) : Option α :=
  if lo < hi then
    match row[(lo + hi) / 2]? with
    | none => none
    | some e =>
      match compare e.1 k with
      | .lt => bisect row k ((lo + hi) / 2 + 1) hi
      | .eq => some e.2
      | .gt => bisect row k lo ((lo + hi) / 2)
  else none
termination_by hi - lo

def search (row : List (κ × α)) (k : κ) : Option α := bisect row k 0 row.length

variable [Std.TransOrd κ] [Std.LawfulEqOrd κ]

omit [Std.TransOrd κ] in
/-- What is found is there, whatever the row looks like. -/
theorem mem_of_bisect (found : bisect row k lo hi = some a) : (k, a) ∈ row := by
  fun_induction bisect row k lo hi with
  | case1 | case5 => cases found
  | case2 lo hi _ e _ _ ih | case4 lo hi _ e _ _ ih => exact ih found
  | case3 lo hi _ e middle same =>
    cases found
    cases Std.LawfulEqOrd.eq_of_compare same
    exact List.mem_of_getElem? middle

omit [Std.LawfulEqOrd κ] in
/-- Keys compare as their places do. -/
theorem Ascending.compare_eq (ascending : Ascending row) {i j : Nat} {e f : κ × α}
    (first : row[i]? = some e) (second : row[j]? = some f) : compare e.1 f.1 = compare i j := by
  obtain ⟨hi, rfl⟩ := List.getElem?_eq_some_iff.1 first
  obtain ⟨hj, rfl⟩ := List.getElem?_eq_some_iff.1 second
  have order := List.pairwise_iff_getElem.1 ascending
  rcases Nat.lt_trichotomy i j with less | rfl | more
  · rw [order i j hi hj less, Nat.compare_eq_lt.2 less]
  · exact Std.ReflCmp.compare_self.trans Std.ReflCmp.compare_self.symm
  · rw [Std.OrientedCmp.gt_of_lt (order j i hj hi more), Nat.compare_eq_gt.2 more]

omit [Std.LawfulEqOrd κ] in
/-- What stands in the window is found, as the half that is left out has other keys only. -/
theorem bisect_of_getElem? (ascending : Ascending row) {j : Nat} (entry : row[j]? = some (k, a))
    (above : lo ≤ j) (below : j < hi) (inside : hi ≤ row.length) :
    bisect row k lo hi = some a := by
  fun_induction bisect row k lo hi with
  | case1 lo hi window outside =>
    rw [List.getElem?_eq_none_iff] at outside
    omega
  | case2 lo hi window e middle smaller ih =>
    rw [ascending.compare_eq middle entry, Nat.compare_eq_lt] at smaller
    exact ih smaller below inside
  | case3 lo hi window e middle same =>
    rw [ascending.compare_eq middle entry, Nat.compare_eq_eq] at same
    rw [same, entry] at middle
    cases middle
    rfl
  | case4 lo hi window e middle larger ih =>
    rw [ascending.compare_eq middle entry, Nat.compare_eq_gt] at larger
    exact ih above larger (by omega)
  | case5 lo hi nothing => omega

theorem search_eq_some_iff (ascending : Ascending row) :
    search row k = some a ↔ (k, a) ∈ row := by
  constructor
  · exact mem_of_bisect
  · intro member
    obtain ⟨j, entry⟩ := List.getElem?_of_mem member
    have small := (List.getElem?_eq_some_iff.1 entry).1
    exact bisect_of_getElem? ascending entry (Nat.zero_le j) small le_rfl

structure Lists (row : List (κ × α)) (m : OrderedMap κ α) [DecidableEq κ] : Prop where
  ascending : Ascending row
  entries : ∀ k a, (k, a) ∈ row ↔ m.get? k = some a

variable [DecidableEq κ] {m : OrderedMap κ α}

theorem lists_sortKeys (m : OrderedMap κ α) : Lists m.sortKeys.toList m where
  ascending := List.pairwise_map.1 m.pairwise_keys_sortKeys
  entries k a := by rw [OrderedMap.mem_toList_iff, OrderedMap.get?_sortKeys]

theorem Lists.search_eq (h : Lists row m) (k : κ) : search row k = m.get? k := by
  ext a
  rw [search_eq_some_iff h.ascending, h.entries]

end Bisect

namespace TableArrays

/-- The action of the driver; nothing if the state is outside of the arrays. -/
def action? (A : TableArrays) (i : Nat) (t : TerminalId) : Option Action := do
  let row ← A.actions[i]?
  match search row t with
  | some action => return action
  | none =>
    match ← A.defaultReduce[i]? with
    | some r => return .reduce r
    | none => return .error

/-- The state that the driver goes to, if any; nothing if the state is outside of the arrays. -/
def goto? (A : TableArrays) (i : Nat) (n : NonterminalId) : Option (Option Nat) := do
  let row ← A.gotos[i]?
  return search row n

end TableArrays

/-- The state that the driver's lexer goes to on a byte, if any; nothing if something is outside
of the arrays. -/
def LexerArrays.next? (A : LexerArrays) (i : Nat) (b : UInt8) : Option (Option Nat) := do
  let k ← A.byteClasses[b.toNat]?
  let row ← A.transitions[i]?
  return (row.find? (·.1 = k)).map Prod.snd

namespace Parts

variable {p : Parts} {i : Nat} {row : Row}

/-- The driver does what the row of the table says, default reductions included. -/
theorem action?_eq (state : p.table.rows[i]? = some row) (t : TerminalId) :
    p.tableArrays.action? i t = some (row.action true t) := by
  have there : p.table.rows.toList[i]? = some row := by rwa [Array.getElem?_toList]
  simp only [TableArrays.action?, tableArrays, List.getElem?_map, there, Option.map_some, bind,
    Option.bind_some, (lists_sortKeys row.actions).search_eq t, Row.action]
  cases row.actions.get? t with
  | some action => rfl
  | none => cases row.defaultReduce <;> rfl

theorem goto?_eq (state : p.table.rows[i]? = some row) (n : NonterminalId) :
    p.tableArrays.goto? i n = some (row.gotos.get? n) := by
  have there : p.table.rows.toList[i]? = some row := by rwa [Array.getElem?_toList]
  simp only [TableArrays.goto?, tableArrays, List.getElem?_map, there, Option.map_some, bind,
    Option.bind_some, (lists_sortKeys row.gotos).search_eq n]
  rfl

/-- Searching from the front finds the entry of a key. -/
theorem find?_eq_lookup {κ α : Type} [DecidableEq κ] (k : κ) (row : List (κ × α)) :
    (row.find? (·.1 = k)).map Prod.snd = OrderedMap.lookup k row := by
  induction row with
  | nil => rfl
  | cons e rest ih =>
    by_cases here : k = e.1
    · rw [OrderedMap.lookup, if_pos here, List.find?_cons_of_pos (by simp [here]), Option.map_some]
    · rw [OrderedMap.lookup, if_neg here, List.find?_cons_of_neg (by simp [Ne.symm here]), ih]

/-- The driver's lexer moves as the automaton does. -/
theorem next?_eq {s : Lexer.DfaState} (state : p.dfa.states[i]? = some s) (b : UInt8) :
    p.lexerArrays.next? i b = some (p.dfa.next i b) := by
  have there : p.dfa.states.toList[i]? = some s := by rwa [Array.getElem?_toList]
  simp only [LexerArrays.next?, lexerArrays, List.getElem?_map, Lexer.ByteClasses.getElem?_allBytes,
    there, Option.map_some, bind, Option.bind_some, find?_eq_lookup, Lexer.Dfa.next,
    Lexer.Dfa.state_eq state]
  exact congrArg some (OrderedMap.get?_sortKeys _ _)

end Parts
end Lalr.Emit
