import Lalr.Proofs.First.Nullable
import Lalr.Proofs.First.Returned

/-! The counters of the search for nullable nonterminals. A counter is the number of occurrences of
nonterminals that have not left the work list, and each nonterminal leaves it once only; so nothing
is counted down that is zero. -/
namespace Lalr.Nullability

open Search

variable {g : Grammar} {s : Search} {popped : List NonterminalId} {n : NonterminalId}
  {pending : WorkList NonterminalId} {front rest : List RuleId}

/-- The search when the nonterminals `popped` have left the work list, in this order, and their
occurrences have been counted. -/
inductive Popped (g : Grammar) : List NonterminalId → Search → Prop where
  | initial : Popped g [] (initial g)
  | step {popped : List NonterminalId} {n : NonterminalId} {s : Search}
      {pending : WorkList NonterminalId} : Popped g popped s → s.pending.pop = some (n, pending) →
      Popped g (popped ++ [n]) (step g s)

/-- The counters when the nonterminals `popped` have left the work list and the occurrences `rest`
have still to be counted. -/
structure Counted (g : Grammar) (popped : List NonterminalId) (rest : List RuleId) (s : Search) :
    Prop where
  remaining : ∀ rule ∈ terminalFreeRules g, s.remaining.get? rule.id =
    some (rule.right.toList.countP (fun X => X ∉ popped.map .nonterminal) + rest.count rule.id)
  left : ∀ rule ∈ terminalFreeRules g, s.remaining.get? rule.id = some 0 → rule.left ∈ s.nullable

/-- Nonterminals known to be nullable have left the work list or are waiting in it. -/
structure Met (popped : List NonterminalId) (s : Search) : Prop where
  nullable : ∀ n, n ∈ s.nullable ↔ n ∈ popped ∨ n ∈ s.pending.toList
  gone : ∀ n ∈ popped, n ∉ s.pending.toList
  nodup : popped.Nodup

namespace Met

theorem found (h : Met popped s) (n : NonterminalId) : Met popped (s.found n) := by
  refine ⟨fun m => ?_, fun m member waits => ?_, h.nodup⟩
  · have := h.nullable n
    rw [mem_nullable_found, mem_pending_found, h.nullable]
    grind
  · rcases mem_pending_found.1 waits with ⟨rfl, fresh⟩ | waits
    · exact fresh ((h.nullable m).2 (.inl member))
    · exact h.gone m member waits

theorem foldl_found (h : Met popped s) (rules : List Rule) :
    Met popped (rules.foldl (fun s rule => s.found rule.left) s) := by
  induction rules generalizing s with
  | nil => exact h
  | cons rule later ih => exact ih (h.found rule.left)

theorem count (h : Met popped s) (r : RuleId) : Met popped (s.count g r) := by
  have counted (left : Nat) : Met popped { s with remaining := s.remaining.insert r left } :=
    ⟨h.nullable, h.gone, h.nodup⟩
  unfold Search.count
  dsimp only
  split
  · exact (counted _).found _
  · exact counted _

theorem foldl_count (h : Met popped s) (rs : List RuleId) :
    Met popped (rs.foldl (Search.count g) s) := by
  induction rs generalizing s with
  | nil => exact h
  | cons r later ih => exact ih (h.count r)

/-- What leaves the work list has not left it before. -/
theorem not_mem (h : Met popped s) (leaves : s.pending.pop = some (n, pending)) : n ∉ popped := by
  intro before
  apply h.gone n before
  simp [WorkList.pop_eq_some leaves]

theorem pop (h : Met popped s) (leaves : s.pending.pop = some (n, pending)) :
    Met (popped ++ [n]) { s with pending } := by
  have split := WorkList.pop_eq_some leaves
  have once := WorkList.not_mem_of_pop leaves
  refine ⟨fun m => ?_, fun m member => ?_, ?_⟩
  · simp only [h.nullable, split, List.mem_cons, List.mem_append, List.not_mem_nil, or_false,
      or_assoc]
  · rcases List.mem_append.1 member with before | same
    · have still := h.gone m before
      rw [split, List.mem_cons, not_or] at still
      exact still.2
    · rwa [List.mem_singleton.1 same]
  · rw [List.nodup_append]
    refine ⟨h.nodup, List.nodup_singleton n, fun m before other last => ?_⟩
    rintro rfl
    exact h.not_mem leaves (List.mem_singleton.1 last ▸ before)

/-- The occurrences still to be counted are those of nonterminals that have not left the work
list. -/
theorem isOpen_eq (h : Met popped s) :
    s.isOpen = fun X => decide (X ∉ popped.map .nonterminal) := by
  funext X
  cases X with
  | terminal t => simp [isOpen]
  | nonterminal m =>
    have := h.nullable m
    have := h.gone m
    rw [isOpen, Bool.eq_iff_iff]
    simp only [Bool.or_eq_true, Bool.not_eq_true', List.contains_eq_mem, decide_eq_false_iff_not,
      WorkList.contains_eq_true, decide_eq_true_eq, List.mem_map, Symbol.nonterminal.injEq,
      exists_eq_right]
    grind

theorem counted (h : Met popped s) (balanced : s.Balanced g rest)
    (complete : s.Complete g rest) : Counted g popped rest s := by
  have remaining := balanced.remaining
  rw [h.isOpen_eq] at remaining
  refine ⟨remaining, fun rule member zero => complete rule member ?_⟩
  rw [h.isOpen_eq]
  exact Option.some.inj ((remaining rule member).symm.trans zero)

end Met

theorem initial_met : Met [] (initial g) := by
  refine Met.foldl_found ?_ _
  constructor <;> simp

/-- While the occurrences of a nonterminal that leaves the work list are counted. -/
theorem counting (linked : g.Linked) (met : Met popped s) (balanced : s.Balanced g [])
    (complete : s.Complete g []) (leaves : s.pending.pop = some (n, pending))
    (split : occurrences g n = front ++ rest) :
    Counted g (popped ++ [n]) rest (front.foldl (Search.count g) { s with pending }) := by
  have start := (balanced_pop linked balanced leaves).2
  have complete' := complete_pop linked balanced complete leaves
  rw [split] at start complete'
  have known : ∀ r ∈ front, ∃ rule ∈ terminalFreeRules g, rule.id = r := fun r member =>
    mem_occurrences (split ▸ List.mem_append_left rest member)
  obtain ⟨balanced', complete'', -⟩ := count_front linked known start complete'
  exact ((met.pop leaves).foldl_count front).counted balanced' complete''

namespace Popped

/-- What every turn of the loop keeps. -/
theorem invariant (linked : g.Linked) (h : Popped g popped s) :
    Met popped s ∧ s.Balanced g [] ∧ s.Complete g [] := by
  induction h with
  | initial => exact ⟨initial_met, initial_balanced linked⟩
  | @step popped n s pending before leaves ih =>
    obtain ⟨met, balanced, complete⟩ := ih
    have ongoing : more s = true := by
      rw [more, Bool.not_eq_true', Bool.eq_false_iff]
      intro idle
      have split := WorkList.pop_eq_some leaves
      rw [WorkList.isEmpty_iff.1 idle] at split
      cases split
    obtain ⟨balanced', complete', -⟩ := step_balanced linked balanced complete ongoing
    refine ⟨?_, balanced', complete'⟩
    rw [Nullability.step, leaves]
    exact (met.pop leaves).foldl_count _

/-- The loop ends with nothing waiting. -/
theorem exists_last (linked : g.Linked) :
    ∃ popped last, Popped g popped last ∧ more last = false ∧ nullableSet g = last.nullable := by
  have keep (s : Search) (h : ∃ popped, Popped g popped s) (ongoing : more s = true) :
      ∃ popped, Popped g popped (Nullability.step g s) := by
    obtain ⟨popped, before⟩ := h
    obtain ⟨n, pending, leaves, -⟩ := WorkList.exists_pop ongoing
    exact ⟨popped ++ [n], before.step leaves⟩
  obtain ⟨popped, last⟩ := iterate_invariant keep (g.rules.size + 1) _ ⟨[], initial⟩
  exact ⟨popped, _, last, (search_done linked).2, rfl⟩

end Popped

/-- Whenever a nonterminal leaves the work list, it does so for the first time. The counter of a
rule without terminals is then the number of occurrences, on its right, of nonterminals that have
not left the list; a rule whose counter is zero has made its left-hand side nullable. This stays so
while the occurrences of the nonterminal are counted, except that those still to be counted are in
the counters, so that a counter is positive before it is counted down. -/
theorem counters_exact (h : g.Returned) :
    (∀ popped s, Popped g popped s → popped.Nodup ∧ Counted g popped [] s ∧
      ∀ n pending, s.pending.pop = some (n, pending) → n ∉ popped ∧
        ∀ front rest, occurrences g n = front ++ rest →
          let now := front.foldl (Search.count g) { s with pending }
          Counted g (popped ++ [n]) rest now ∧
            ∀ r later, rest = r :: later → ∃ c, now.remaining.get? r = some (c + 1)) ∧
    ∃ popped last, Popped g popped last ∧ more last = false ∧ nullableSet g = last.nullable := by
  have linked := h.linked
  refine ⟨fun popped s before => ?_, Popped.exists_last linked⟩
  obtain ⟨met, balanced, complete⟩ := before.invariant linked
  refine ⟨met.nodup, met.counted balanced complete, fun n pending leaves => ?_⟩
  refine ⟨met.not_mem leaves, fun front rest split => ?_⟩
  have counted := counting linked met balanced complete leaves split
  refine ⟨counted, ?_⟩
  rintro r later rfl
  have occurs : r ∈ occurrences g n := by simp [split]
  obtain ⟨rule, member, rfl⟩ := mem_occurrences occurs
  exact ⟨_, by rw [counted.remaining rule member, List.count_cons_self, ← Nat.add_assoc]⟩

/-- `A := B B C`, `B := | C`, `C := `. Both rules of `B` are counted down to zero, and `B` occurs
twice in the rule of `A`. -/
def repeatedNullables : List Declaration :=
  [.nonterminal "A", .nonterminal "B", .nonterminal "C",
    .rule ⟨1⟩ [.nonterminal ⟨2⟩, .nonterminal ⟨2⟩, .nonterminal ⟨3⟩] none, .rule ⟨2⟩ [] none,
    .rule ⟨2⟩ [.nonterminal ⟨3⟩] none, .rule ⟨3⟩ [] none]

/-- At the end all four nonterminals are nullable, and the counters are exact. -/
theorem counters_exact_repeatedNullables :
    let g := (Builder.initial.declareAll repeatedNullables).2.finish
    g.Returned ∧ ∃ popped last, Popped g popped last ∧ more last = false ∧ popped.Nodup ∧
      last.nullable = [⟨2⟩, ⟨3⟩, ⟨1⟩, ⟨0⟩] ∧ Counted g popped [] last := by
  intro g
  have returned : g.Returned := .steps repeatedNullables
  obtain ⟨always, popped, last, leads, done, nullable⟩ := counters_exact returned
  obtain ⟨nodup, counted, -⟩ := always popped last leads
  have found : nullableSet g = [⟨2⟩, ⟨3⟩, ⟨1⟩, ⟨0⟩] := by decide +kernel
  exact ⟨returned, popped, last, leads, done, nodup, nullable ▸ found, counted⟩

end Lalr.Nullability
