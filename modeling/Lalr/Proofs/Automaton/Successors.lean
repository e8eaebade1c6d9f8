import Lalr.Automaton.Construct
import Lalr.Proofs.Automaton.Closure

/-! The successors of an item set, one for each symbol behind a marker. They are its goto sets,
unless a marker runs over. -/
namespace Lalr

open LookaheadSet

variable {g : Grammar} {items kernel : ItemSet} {i j : Item} {t : TerminalId}
  {lookaheads : TerminalSet} {X : Symbol} {entries : List (Item × TerminalSet)}

/-- As `goto`, where markers are moved in 16 bits. -/
def LookaheadSet.advance (g : Grammar) (I : LookaheadSet) (X : Symbol) : LookaheadSet where
  core j := ∃ i, I.core i ∧ i.nextSymbol g = some X ∧ j = i.advance
  lookahead j t := ∃ i, I.lookahead i t ∧ i.nextSymbol g = some X ∧ j = i.advance

theorem Item.advance_eq_moved (fits : i.marker < 65535) : i.advance = i.moved := by
  have small : i.marker + 1 < UInt16.size := Nat.succ_lt_succ fits
  rw [advance, moved, Nat.mod_eq_of_lt small]

theorem Item.marker_advance_le (i : Item) : i.advance.marker ≤ i.marker + 1 := Nat.mod_le ..

/-- Where no marker runs over, the items are those of the goto set. -/
theorem LookaheadSet.advance_eq_goto {I : LookaheadSet} (supported : I.Supported)
    (fits : ∀ i, I.core i → i.nextSymbol g = some X → i.marker < 65535) :
    I.advance g X = I.goto g X := by
  have same {i : Item} (core : I.core i) (next : i.nextSymbol g = some X) :
      i.advance = i.moved := Item.advance_eq_moved (fits i core next)
  refine LookaheadSet.ext ?_ ?_
  · funext j
    refine propext (exists_congr fun i => and_congr_right fun core => ?_)
    exact and_congr_right fun next => by rw [same core next]
  · funext j t
    refine propext (exists_congr fun i => and_congr_right fun member => ?_)
    exact and_congr_right fun next => by rw [same (supported i t member) next]

namespace ItemSet

theorem core_addLookaheads : (items.addLookaheads i lookaheads).lookaheadSet.core j ↔
    j = i ∨ items.lookaheadSet.core j := OrderedMap.mem_keys_insert

theorem lookahead_addLookaheads :
    (items.addLookaheads i lookaheads).lookaheadSet.lookahead j t ↔
      items.lookaheadSet.lookahead j t ∨ j = i ∧ t ∈ lookaheads := by
  simp only [lookaheadSet, addLookaheads, OrderedMap.get?_insert]
  by_cases same : j = i <;> simp [same]

/-- Items with their lookaheads are added one after the other. -/
theorem core_foldl_addLookaheads :
    (entries.foldl (fun items (k, l) => items.addLookaheads k l) items).lookaheadSet.core j ↔
      items.lookaheadSet.core j ∨ ∃ l, (j, l) ∈ entries := by
  induction entries generalizing items with
  | nil => simp
  | cons e rest ih =>
    obtain ⟨k, l⟩ := e
    rw [List.foldl_cons, ih, core_addLookaheads]
    simp only [List.mem_cons, Prod.mk.injEq]
    grind

theorem lookahead_foldl_addLookaheads :
    (entries.foldl (fun items (k, l) => items.addLookaheads k l)
      items).lookaheadSet.lookahead j t ↔
      items.lookaheadSet.lookahead j t ∨ ∃ l, (j, l) ∈ entries ∧ t ∈ l := by
  induction entries generalizing items with
  | nil => simp
  | cons e rest ih =>
    obtain ⟨k, l⟩ := e
    rw [List.foldl_cons, ih, lookahead_addLookaheads]
    simp only [List.mem_cons, Prod.mk.injEq]
    grind

theorem exists_mem_toList : (∃ l, (j, l) ∈ items.toList) ↔ items.lookaheadSet.core j := by
  simp [lookaheadSet, OrderedMap.mem_keys_iff, OrderedMap.mem_toList_iff]

theorem exists_mem_mem_toList :
    (∃ l, (j, l) ∈ items.toList ∧ t ∈ l) ↔ items.lookaheadSet.lookahead j t := by
  simp only [lookaheadSet, OrderedMap.mem_toList_iff]
  cases items.get? j <;> simp

theorem lookaheadSet_sortKeys (items : ItemSet) :
    lookaheadSet items.sortKeys = items.lookaheadSet := by
  refine LookaheadSet.ext ?_ ?_
  · funext i
    exact propext OrderedMap.mem_keys_sortKeys
  · funext i t
    simp only [lookaheadSet, OrderedMap.get?_sortKeys]

end ItemSet

structure Gathered (g : Grammar) (entries : List (Item × TerminalSet))
    (kernels last : OrderedMap Symbol ItemSet) : Prop where
  keys : ∀ X, X ∈ last.keys ↔ X ∈ kernels.keys ∨ ∃ e ∈ entries, e.1.nextSymbol g = some X
  core : ∀ X j, ((last.get? X).getD ∅).lookaheadSet.core j ↔
    ((kernels.get? X).getD ∅).lookaheadSet.core j ∨
      ∃ e ∈ entries, e.1.nextSymbol g = some X ∧ j = e.1.advance
  lookahead : ∀ X j t, ((last.get? X).getD ∅).lookaheadSet.lookahead j t ↔
    ((kernels.get? X).getD ∅).lookaheadSet.lookahead j t ∨
      ∃ e ∈ entries, e.1.nextSymbol g = some X ∧ j = e.1.advance ∧ t ∈ e.2

theorem gathered_foldl (entries : List (Item × TerminalSet))
    (kernels : OrderedMap Symbol ItemSet) :
    Gathered g entries kernels (entries.foldl (fun kernels (i, lookaheads) =>
      match i.nextSymbol g with
      | none => kernels
      | some symbol => kernels.insert symbol
          (((kernels.get? symbol).getD ∅).addLookaheads i.advance lookaheads)) kernels) := by
  induction entries generalizing kernels with
  | nil => constructor <;> simp
  | cons e rest ih =>
    obtain ⟨i, lookaheads⟩ := e
    dsimp only [List.foldl_cons]
    cases next : i.nextSymbol g with
    | none =>
      have later := ih kernels
      dsimp only
      constructor
      case keys => intro X; rw [later.keys]; simp [next]
      case core => intro X j; rw [later.core]; simp [next]
      case lookahead => intro X j t; rw [later.lookahead]; simp [next]
    | some Y =>
      have later := ih (kernels.insert Y
        (((kernels.get? Y).getD ∅).addLookaheads i.advance lookaheads))
      have entry (X : Symbol) : ((kernels.insert Y
          (((kernels.get? Y).getD ∅).addLookaheads i.advance lookaheads)).get? X).getD ∅ =
          if X = Y then ((kernels.get? X).getD ∅).addLookaheads i.advance lookaheads
          else (kernels.get? X).getD ∅ := by
        rw [OrderedMap.get?_insert]
        by_cases same : X = Y <;> simp [same]
      dsimp only
      constructor
      case keys =>
        intro X
        rw [later.keys, OrderedMap.mem_keys_insert]
        simp only [List.exists_mem_cons_iff, next, Option.some.injEq, eq_comm (a := X)]
        exact or_assoc.trans or_left_comm
      case core =>
        intro X j
        rw [later.core, entry]
        simp only [List.exists_mem_cons_iff, next, Option.some.injEq]
        by_cases same : X = Y
        · rw [if_pos same, ItemSet.core_addLookaheads]
          simp only [same, true_and]
          exact or_assoc.trans or_left_comm
        · simp [same, Ne.symm same]
      case lookahead =>
        intro X j t
        rw [later.lookahead, entry]
        simp only [List.exists_mem_cons_iff, next, Option.some.injEq]
        by_cases same : X = Y
        · rw [if_pos same, ItemSet.lookahead_addLookaheads]
          simp only [same, true_and]
          exact or_assoc
        · simp [same, Ne.symm same]

theorem successors_gathered : Gathered g items.toList ∅ (successors g items) :=
  gathered_foldl items.toList ∅

theorem mem_keys_successors :
    X ∈ (successors g items).keys ↔ ∃ j, (items.lookaheadSet.advance g X).core j := by
  rw [successors_gathered.keys]
  constructor
  · rintro (none | ⟨⟨i, l⟩, member, next⟩)
    · cases none
    · exact ⟨i.advance, i, ItemSet.exists_mem_toList.1 ⟨l, member⟩, next, rfl⟩
  · rintro ⟨-, i, core, next, rfl⟩
    obtain ⟨l, member⟩ := ItemSet.exists_mem_toList.2 core
    exact .inr ⟨(i, l), member, next⟩

theorem lookaheadSet_successors (h : (successors g items).get? X = some kernel) :
    kernel.lookaheadSet = items.lookaheadSet.advance g X := by
  have gathered : Gathered g items.toList ∅ (successors g items) := successors_gathered
  have cores := gathered.core X
  have lookaheads := gathered.lookahead X
  rw [h] at cores lookaheads
  refine LookaheadSet.ext ?_ ?_
  · funext j
    refine propext ((cores j).trans ⟨?_, ?_⟩)
    · rintro (none | ⟨⟨i, l⟩, member, next, rfl⟩)
      · cases none
      · exact ⟨i, ItemSet.exists_mem_toList.1 ⟨l, member⟩, next, rfl⟩
    · rintro ⟨i, core, next, rfl⟩
      obtain ⟨l, member⟩ := ItemSet.exists_mem_toList.2 core
      exact .inr ⟨(i, l), member, next, rfl⟩
  · funext j t
    refine propext ((lookaheads j t).trans ⟨?_, ?_⟩)
    · rintro (none | ⟨⟨i, l⟩, member, next, rfl, inSet⟩)
      · exact absurd none (TerminalSet.not_mem_empty t)
      · exact ⟨i, ItemSet.exists_mem_mem_toList.1 ⟨l, member, inSet⟩, next, rfl⟩
    · rintro ⟨i, inSet, next, rfl⟩
      obtain ⟨l, member, inSet⟩ := ItemSet.exists_mem_mem_toList.2 inSet
      exact .inr ⟨(i, l), member, next, rfl, inSet⟩

end Lalr
