import Std.Data.TreeSet

/-! A first-in first-out work list that ignores values already waiting in it. The view is
`toList`, the waiting values in the order in which they will leave. -/
namespace Lalr

open Std

/-- Values leave at `front`; those that arrive are kept in reverse in `back`. The set of
waiting values answers membership without a walk through the list. -/
structure WorkList (α : Type u) [Ord α] [TransOrd α] [LawfulEqOrd α] where
  front : List α
  back : List α
  waiting : TreeSet α
  mem_waiting : ∀ a, a ∈ waiting ↔ a ∈ front ++ back.reverse
  nodup : (front ++ back.reverse).Nodup

namespace WorkList

variable {α : Type u} [Ord α] [TransOrd α] [LawfulEqOrd α]

def toList (w : WorkList α) : List α := w.front ++ w.back.reverse

def empty : WorkList α := ⟨[], [], ∅, by simp, by simp⟩

/-- Append `a` unless it is already waiting. -/
def push (w : WorkList α) (a : α) : WorkList α :=
  if h : a ∈ w.waiting then w
  else
    { front := w.front
      back := a :: w.back
      waiting := w.waiting.insert a
      mem_waiting := fun b => by
        have := w.mem_waiting b
        simp only [List.mem_append, List.mem_reverse] at this
        simp [TreeSet.mem_insert, this]
        grind
      nodup := by
        have fresh : a ∉ w.front ++ w.back.reverse := fun hm => h ((w.mem_waiting a).2 hm)
        have := w.nodup
        rw [List.reverse_cons, ← List.append_assoc, List.nodup_append]
        exact ⟨this, by simp, by grind⟩ }

def contains (w : WorkList α) (a : α) : Bool := w.waiting.contains a

def pop (w : WorkList α) : Option (α × WorkList α) :=
  match h : w.front with
  | a :: front =>
    some (a,
      { front := front
        back := w.back
        waiting := w.waiting.erase a
        mem_waiting := fun b => by
          have hm := w.mem_waiting b
          have hn := w.nodup
          simp only [h, List.cons_append, List.mem_cons, List.nodup_cons] at hm hn
          rw [TreeSet.mem_erase, hm]
          simp only [ne_eq, Std.compare_eq_iff_eq]
          grind
        nodup := by
          have hn := w.nodup
          simp only [h, List.cons_append, List.nodup_cons] at hn
          exact hn.2 })
  | [] =>
    match hb : w.back.reverse with
    | [] => none
    | a :: rest =>
      some (a,
        { front := rest
          back := []
          waiting := w.waiting.erase a
          mem_waiting := fun b => by
            have hm := w.mem_waiting b
            have hn := w.nodup
            simp only [h, hb, List.nil_append, List.mem_cons, List.nodup_cons] at hm hn
            rw [TreeSet.mem_erase, hm]
            simp only [ne_eq, Std.compare_eq_iff_eq, List.reverse_nil, List.append_nil]
            grind
          nodup := by
            have hn := w.nodup
            simp only [h, hb, List.nil_append, List.nodup_cons] at hn
            simpa using hn.2 })

def pushAll (w : WorkList α) (values : List α) : WorkList α := values.foldl push w

/-- The values in order of first occurrence. -/
def ofList (values : List α) : WorkList α := empty.pushAll values

def size (w : WorkList α) : Nat := w.front.length + w.back.length

def isEmpty (w : WorkList α) : Bool := w.front.isEmpty && w.back.isEmpty

@[simp] theorem toList_empty : (empty : WorkList α).toList = [] := rfl

@[simp] theorem contains_eq_true {w : WorkList α} {a : α} :
    w.contains a = true ↔ a ∈ w.toList := w.mem_waiting a

theorem toList_nodup (w : WorkList α) : w.toList.Nodup := w.nodup

theorem toList_push [DecidableEq α] (w : WorkList α) (a : α) :
    (w.push a).toList = if a ∈ w.toList then w.toList else w.toList ++ [a] := by
  have hm := w.mem_waiting a
  unfold push
  split
  next h => simp [toList, hm.1 h]
  next h =>
    have : a ∉ w.toList := fun h' => h (hm.2 h')
    simp only [this, if_false]
    simp [toList]

theorem toList_pop (w : WorkList α) :
    w.pop.map (fun p => (p.1, p.2.toList)) =
      w.toList.head?.map fun a => (a, w.toList.tail) := by
  unfold pop
  split
  next a front h => simp [toList, h]
  next h =>
    split
    next hb => simp [toList, h, hb]
    next a rest hb => simp [toList, h, hb]

theorem mem_push [DecidableEq α] {w : WorkList α} {a b : α} :
    b ∈ (w.push a).toList ↔ b = a ∨ b ∈ w.toList := by
  rw [toList_push]
  by_cases h : a ∈ w.toList <;> grind

theorem mem_pushAll [DecidableEq α] {w : WorkList α} {values : List α} {b : α} :
    b ∈ (w.pushAll values).toList ↔ b ∈ values ∨ b ∈ w.toList := by
  induction values generalizing w with
  | nil => simp [pushAll]
  | cons a rest ih =>
    change b ∈ ((w.push a).pushAll rest).toList ↔ _
    rw [ih, mem_push, List.mem_cons]
    grind

@[simp] theorem mem_ofList [DecidableEq α] {values : List α} {b : α} :
    b ∈ (ofList values).toList ↔ b ∈ values := by
  rw [ofList, mem_pushAll]
  simp

theorem length_push_le [DecidableEq α] (w : WorkList α) (a : α) :
    (w.push a).toList.length ≤ w.toList.length + 1 := by
  rw [toList_push]
  split <;> simp

theorem length_pushAll_le [DecidableEq α] (w : WorkList α) (values : List α) :
    (w.pushAll values).toList.length ≤ w.toList.length + values.length := by
  induction values generalizing w with
  | nil => simp [pushAll]
  | cons a rest ih =>
    have first := length_push_le w a
    have others : ((w.push a).pushAll rest).toList.length ≤ _ := ih (w.push a)
    change ((w.push a).pushAll rest).toList.length ≤ _
    rw [List.length_cons]
    omega

theorem length_ofList_le [DecidableEq α] (values : List α) :
    (ofList values).toList.length ≤ values.length := by
  simpa [ofList] using length_pushAll_le empty values

theorem pop_eq_none {w : WorkList α} (h : w.pop = none) : w.toList = [] := by
  have := toList_pop w
  rw [h] at this
  cases hl : w.toList <;> simp [hl] at this ⊢

theorem pop_eq_some {w rest : WorkList α} {a : α} (h : w.pop = some (a, rest)) :
    w.toList = a :: rest.toList := by
  have := toList_pop w
  rw [h] at this
  cases hl : w.toList <;> simp [hl] at this ⊢
  exact ⟨this.1.symm, this.2.symm⟩

/-- A list that is not empty has a value that has waited longest. -/
theorem exists_pop {w : WorkList α} (waiting : (!w.isEmpty) = true) :
    ∃ a rest, w.pop = some (a, rest) ∧ w.toList = a :: rest.toList := by
  cases popped : w.pop with
  | none =>
    have empty : w.isEmpty = true := by simpa [isEmpty, toList] using pop_eq_none popped
    rw [empty] at waiting
    cases waiting
  | some p => exact ⟨p.1, p.2, rfl, pop_eq_some popped⟩

/-- A popped value is not waiting any more. -/
theorem not_mem_of_pop {w rest : WorkList α} {a : α} (h : w.pop = some (a, rest)) :
    a ∉ rest.toList := by
  have := w.toList_nodup
  rw [pop_eq_some h, List.nodup_cons] at this
  exact this.1

theorem isEmpty_iff {w : WorkList α} : w.isEmpty = true ↔ w.toList = [] := by
  simp [isEmpty, toList]

end WorkList
end Lalr
