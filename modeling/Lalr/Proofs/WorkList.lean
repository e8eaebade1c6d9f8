import Lalr.WorkList

/-! Runs of a work list. What has entered is what has left and what is still waiting, in this
order; so values leave in the order in which they entered, and none is lost. -/
namespace Lalr.WorkList

open Std

variable {α : Type u}

inductive Request (α : Type u) where
  | push (a : α)
  | pop

def Request.isPop : Request α → Bool
  | push _ => false
  | pop => true

/-- A request that has been answered: a push by whether the value is new, a pop by the value that
leaves. -/
inductive Event (α : Type u) where
  | pushed (a : α) (new : Bool)
  | popped (value : Option α)

namespace Event

def entered? : Event α → Option α
  | pushed a true => some a
  | _ => none

def left? : Event α → Option α
  | popped value => value
  | _ => none

end Event

def entered (events : List (Event α)) : List α := events.filterMap Event.entered?

def left (events : List (Event α)) : List α := events.filterMap Event.left?

@[simp] theorem entered_cons (e : Event α) (events : List (Event α)) :
    entered (e :: events) = e.entered?.toList ++ entered events := by
  cases entering : e.entered? <;> simp [entered, entering]

@[simp] theorem left_cons (e : Event α) (events : List (Event α)) :
    left (e :: events) = e.left?.toList ++ left events := by
  cases leaving : e.left? <;> simp [left, leaving]

variable [Ord α] [TransOrd α] [LawfulEqOrd α] {w : WorkList α} {a : α} {front back : List α}

def serve (w : WorkList α) : Request α → Event α × WorkList α
  | .push a => (.pushed a (!w.contains a), w.push a)
  | .pop =>
    match w.pop with
    | none => (.popped none, w)
    | some (a, rest) => (.popped (some a), rest)

def run (w : WorkList α) : List (Request α) → List (Event α) × WorkList α
  | [] => ([], w)
  | r :: later => ((w.serve r).1 :: ((w.serve r).2.run later).1, ((w.serve r).2.run later).2)

/-- Of values that occur repeatedly, the first occurrence enters. -/
theorem toList_pushAll [DecidableEq α] (w : WorkList α) (values : List α) :
    (w.pushAll values).toList =
      w.toList ++ (values.filter fun a => a ∉ w.toList).eraseDups := by
  induction values generalizing w with
  | nil => simp [pushAll]
  | cons a rest ih =>
    change ((w.push a).pushAll rest).toList = _
    rw [ih, toList_push]
    by_cases waits : a ∈ w.toList
    · simp [waits]
    · have others : (rest.filter fun b => b ∉ w.toList ++ [a]) =
          (rest.filter fun b => b ∉ w.toList).filter fun b => !b == a := by
        rw [List.filter_filter]
        refine List.filter_congr fun b _ => ?_
        rw [Bool.eq_iff_iff]
        simp [and_comm]
      rw [if_neg waits, others, List.filter_cons_of_pos (by simpa using waits),
        List.eraseDups_cons, List.append_assoc, List.singleton_append]

theorem toList_ofList [DecidableEq α] (values : List α) :
    (ofList values).toList = values.eraseDups := by
  rw [ofList, toList_pushAll, toList_empty, List.nil_append, List.filter_eq_self.2]
  simp

/-- A push is answered by whether the value was not waiting. -/
theorem serve_push (w : WorkList α) (a : α) :
    ∃ new, w.serve (.push a) = (.pushed a new, w.push a) ∧ (new = true ↔ a ∉ w.toList) := by
  refine ⟨!w.contains a, rfl, ?_⟩
  rw [← contains_eq_true, Bool.not_eq_true', Bool.not_eq_true]

/-- The value that leaves is the first one that waits. -/
theorem serve_pop (w : WorkList α) :
    (w.serve .pop).1 = .popped w.toList.head? ∧ (w.serve .pop).2.toList = w.toList.tail := by
  rw [serve]
  cases popped : w.pop with
  | none => simp [pop_eq_none popped]
  | some p =>
    obtain ⟨a, rest⟩ := p
    simp [pop_eq_some popped]

/-- With one request, what waited and what enters is what leaves and what waits then. -/
theorem toList_serve [DecidableEq α] (w : WorkList α) (r : Request α) :
    w.toList ++ (w.serve r).1.entered?.toList =
      (w.serve r).1.left?.toList ++ (w.serve r).2.toList := by
  cases r with
  | push a =>
    obtain ⟨new, served, isNew⟩ := serve_push w a
    rw [served, toList_push]
    cases new with
    | false =>
      have waits : a ∈ w.toList := by simpa using isNew
      simp [Event.entered?, Event.left?, waits]
    | true =>
      have absent : a ∉ w.toList := isNew.1 rfl
      simp [Event.entered?, Event.left?, absent]
  | pop =>
    obtain ⟨served, rest⟩ := serve_pop w
    rw [served, rest]
    cases w.toList <;> simp [Event.entered?, Event.left?]

theorem toList_run [DecidableEq α] (w : WorkList α) (requests : List (Request α)) :
    w.toList ++ entered (w.run requests).1 =
      left (w.run requests).1 ++ (w.run requests).2.toList := by
  induction requests generalizing w with
  | nil => simp [run, entered, left]
  | cons r later ih =>
    simp only [run, entered_cons, left_cons]
    rw [← List.append_assoc, toList_serve, List.append_assoc, ih, List.append_assoc]

/-- A value leaves at the latest when as many values have left as stood in front of it. -/
theorem mem_left_run [DecidableEq α] {requests : List (Request α)}
    (waits : w.toList = front ++ a :: back)
    (enough : front.length < requests.countP Request.isPop) : a ∈ left (w.run requests).1 := by
  induction requests generalizing w front back with
  | nil => simp at enough
  | cons r later ih =>
    simp only [run, left_cons, List.mem_append]
    cases r with
    | push b =>
      obtain ⟨new, served, -⟩ := serve_push w b
      -- What is pushed comes to stand behind the value.
      obtain ⟨back', still⟩ : ∃ back', (w.push b).toList = front ++ a :: back' := by
        rw [toList_push, waits]
        split
        · exact ⟨back, rfl⟩
        · exact ⟨back ++ [b], by simp⟩
      rw [served]
      exact .inr (ih still (by simpa [Request.isPop] using enough))
    | pop =>
      obtain ⟨served, rest⟩ := serve_pop w
      cases front with
      | nil =>
        rw [served, waits]
        exact .inl (by simp [Event.left?])
      | cons b front =>
        have still : (w.serve .pop).2.toList = front ++ a :: back := by
          rw [rest, waits, List.cons_append, List.tail_cons]
        refine .inr (ih still ?_)
        simp only [List.length_cons, List.countP_cons, Request.isPop, if_true] at enough
        omega

/-- What waits leaves once there are as many pops as values that wait. -/
theorem mem_left_of_mem [DecidableEq α] {requests : List (Request α)} (waits : a ∈ w.toList)
    (enough : w.toList.length ≤ requests.countP Request.isPop) :
    a ∈ left (w.run requests).1 := by
  obtain ⟨front, back, split⟩ := List.append_of_mem waits
  refine mem_left_run split (Nat.lt_of_lt_of_le ?_ enough)
  rw [split, List.length_append, List.length_cons]
  omega

/-- Whatever has been asked of a work list that was collected from some values: the set of waiting
values holds those in the list, of which no two are equal; a push says whether its value was not
waiting, and a pop takes the first value; values leave in the order in which they entered; and a
value that is pushed, be it new or not, leaves if enough pops follow. -/
theorem run_loses_nothing [DecidableEq α] (values : List α) (requests : List (Request α)) :
    let start := ofList values
    let events := (start.run requests).1
    let w := (start.run requests).2
    ((∀ a, a ∈ w.waiting ↔ a ∈ w.toList) ∧ w.toList.Nodup) ∧
    (∀ a, ∃ new, w.serve (.push a) = (.pushed a new, w.push a) ∧ (new = true ↔ a ∉ w.toList)) ∧
    ((w.serve .pop).1 = .popped w.toList.head? ∧ (w.serve .pop).2.toList = w.toList.tail) ∧
    (start.toList = values.eraseDups ∧
      start.toList ++ entered events = left events ++ w.toList) ∧
    (∀ a ∈ values, start.toList.length ≤ requests.countP Request.isPop → a ∈ left events) ∧
    ∀ a later, (w.push a).toList.length ≤ later.countP Request.isPop →
      a ∈ left ((w.push a).run later).1 := by
  intro start events w
  refine ⟨⟨w.mem_waiting, w.toList_nodup⟩, serve_push w, serve_pop w,
    ⟨toList_ofList values, toList_run start requests⟩, fun a member enough => ?_,
    fun a later enough => ?_⟩
  · exact mem_left_of_mem (mem_ofList.2 member) enough
  · exact mem_left_of_mem (mem_push.2 (.inl rfl)) enough

/-- A value is pushed again while it waits, and once more after it has left. -/
def repeatedPushes : List (Request Nat) := [.push 2, .pop, .push 1, .pop, .pop]

/-- Each value leaves as often as it has entered. -/
theorem run_loses_nothing_repeatedPushes :
    left ((ofList [1, 2, 1, 3]).run repeatedPushes).1 = [1, 2, 3] ∧
      ((ofList [1, 2, 1, 3]).run repeatedPushes).2.toList = [1] ∧
      1 ∈ left ((((ofList [1, 2, 1, 3]).run repeatedPushes).2.push 1).run [.push 4, .pop]).1 := by
  obtain ⟨-, -, -, ⟨collected, balance⟩, -, leaves⟩ :=
    run_loses_nothing [1, 2, 1, 3] repeatedPushes
  have waiting : ((ofList [1, 2, 1, 3]).run repeatedPushes).2.toList = [1] := by decide +kernel
  have entering : entered ((ofList [1, 2, 1, 3]).run repeatedPushes).1 = [1] := by decide +kernel
  refine ⟨?_, waiting, leaves 1 [.push 4, .pop] (by decide +kernel)⟩
  rw [collected, entering, waiting] at balance
  exact (List.append_cancel_right balance).symm

end Lalr.WorkList
