import Lalr.First
import Lalr.Proofs.Grammar.Derivation
import Lalr.Proofs.Grammar.WellFormed
import Mathlib.Data.List.Perm.Subperm

/-! The search for nullable nonterminals finds exactly those that derive the empty form. While
it runs, each rule without terminals is counted down by the occurrences of nonterminals that
have left the work list. -/
namespace Lalr.Nullability

variable {g : Grammar} {rule : Rule} {n : NonterminalId} {rest : List RuleId}

theorem mem_terminalFreeRules : rule ∈ terminalFreeRules g ↔
    rule ∈ g.rules.values ∧ ∀ X ∈ rule.right.toList, X.terminal? = none := by
  rw [terminalFreeRules, List.mem_filter, Rule.isTerminalFree, List.all_eq_true]
  simp only [Option.isNone_iff_eq_none]

theorem nodup_terminalFreeRules (linked : g.Linked) :
    ((terminalFreeRules g).map Rule.id).Nodup :=
  (List.filter_sublist.map Rule.id).nodup linked.nodup_ids

/-- In rules with different identifiers the occurrences of `n` are counted rule by rule. -/
theorem count_occurrences {rules : List Rule} (nodup : (rules.map Rule.id).Nodup)
    (member : rule ∈ rules) :
    (rules.flatMap fun r => (r.right.toList.filter (· = .nonterminal n)).map fun _ => r.id).count
      rule.id = rule.right.toList.count (.nonterminal n) := by
  have one (r : Rule) : ((r.right.toList.filter (· = .nonterminal n)).map fun _ => r.id).count
      rule.id = if r.id = rule.id then r.right.toList.count (.nonterminal n) else 0 := by
    rw [List.map_const', List.count_replicate, List.count_eq_length_filter]
    simp [beq_eq_decide]
  induction rules with
  | nil => cases member
  | cons r rest ih =>
    rw [List.map_cons, List.nodup_cons] at nodup
    rw [List.flatMap_cons, List.count_append, one]
    rcases List.mem_cons.1 member with rfl | inRest
    · have none : (rest.flatMap fun r =>
          (r.right.toList.filter (· = .nonterminal n)).map fun _ => r.id).count rule.id = 0 := by
        rw [List.count_eq_zero]
        intro found
        obtain ⟨r, inRest, found⟩ := List.mem_flatMap.1 found
        obtain ⟨_, -, same⟩ := List.mem_map.1 found
        exact nodup.1 (List.mem_map.2 ⟨r, inRest, same⟩)
      rw [none, if_pos rfl, Nat.add_zero]
    · have other : r.id ≠ rule.id := fun same => nodup.1 (List.mem_map.2 ⟨rule, inRest, same.symm⟩)
      rw [if_neg other, Nat.zero_add]
      exact ih nodup.2 inRest

namespace Search

variable {s : Search}

/-- Whether the occurrences of a symbol have still to be counted, now or when it turns out to
be nullable. -/
def isOpen (s : Search) : Symbol → Bool
  | .terminal _ => true
  | .nonterminal n => !s.nullable.contains n || s.pending.contains n

/-- The search when the occurrences `rest` of the nonterminal popped last have still to be
counted. -/
structure Balanced (g : Grammar) (rest : List RuleId) (s : Search) : Prop where
  remaining : ∀ rule ∈ terminalFreeRules g,
    s.remaining.get? rule.id = some (rule.right.toList.countP s.isOpen + rest.count rule.id)
  waiting : ∀ n ∈ s.pending.toList, n ∈ s.nullable
  sound : ∀ n ∈ s.nullable, g.Nullable [.nonterminal n]
  nodup : s.nullable.Nodup
  lefts : ∀ n ∈ s.nullable, n ∈ (terminalFreeRules g).map Rule.left

/-- Rules counted down to zero have made their left-hand sides nullable. -/
def Complete (g : Grammar) (rest : List RuleId) (s : Search) : Prop :=
  ∀ rule ∈ terminalFreeRules g, rule.right.toList.countP s.isOpen + rest.count rule.id = 0 →
    rule.left ∈ s.nullable

theorem mem_nullable_found {m : NonterminalId} :
    m ∈ (s.found n).nullable ↔ m = n ∨ m ∈ s.nullable := by
  unfold found
  split <;> grind

theorem mem_pending_found {m : NonterminalId} :
    m ∈ (s.found n).pending.toList ↔ m = n ∧ n ∉ s.nullable ∨ m ∈ s.pending.toList := by
  unfold found
  split
  · grind
  · rw [WorkList.mem_push]
    grind

theorem remaining_found : (s.found n).remaining = s.remaining := by
  unfold found
  split <;> rfl

theorem isOpen_found : (s.found n).isOpen = s.isOpen := by
  funext X
  cases X with
  | terminal t => rfl
  | nonterminal m =>
    rw [isOpen, isOpen, Bool.eq_iff_iff]
    simp only [Bool.or_eq_true, Bool.not_eq_true', List.contains_eq_mem, decide_eq_false_iff_not,
      WorkList.contains_eq_true, mem_nullable_found, mem_pending_found]
    grind

theorem Balanced.found (h : s.Balanced g rest) (nullable : g.Nullable [.nonterminal n])
    (left : n ∈ (terminalFreeRules g).map Rule.left) : (s.found n).Balanced g rest where
  remaining rule member := by rw [remaining_found, isOpen_found]; exact h.remaining rule member
  waiting m member := by
    rw [mem_nullable_found]
    rcases mem_pending_found.1 member with ⟨rfl, -⟩ | member
    · exact .inl rfl
    · exact .inr (h.waiting m member)
  sound m member := by
    rcases mem_nullable_found.1 member with rfl | member
    · exact nullable
    · exact h.sound m member
  nodup := by
    unfold Search.found
    split
    · exact h.nodup
    · rw [List.nodup_append]
      exact ⟨h.nodup, by simp, by grind⟩
  lefts m member := by
    rcases mem_nullable_found.1 member with rfl | member
    · exact left
    · exact h.lefts m member

/-- The right-hand side of a rule that has been counted down is nullable. -/
theorem Balanced.nullable_of_zero (h : s.Balanced g rest) (member : rule ∈ terminalFreeRules g)
    (zero : rule.right.toList.countP s.isOpen = 0) : g.Nullable [.nonterminal rule.left] := by
  have known := (mem_terminalFreeRules.1 member).1
  refine Grammar.nullable_of_rule known (Grammar.nullable_iff_forall.2 fun X inRight => ?_)
  have closed := List.countP_eq_zero.1 zero X inRight
  cases X with
  | terminal t => exact absurd rfl closed
  | nonterminal m =>
    have : m ∈ s.nullable := by
      simp only [isOpen, List.contains_eq_mem, Bool.or_eq_true, Bool.not_eq_true',
        decide_eq_false_iff_not, not_or, Decidable.not_not] at closed
      exact closed.1
    exact h.sound m this

theorem isOpen_count (s : Search) (r : RuleId) : (s.count g r).isOpen = s.isOpen := by
  unfold count
  dsimp only
  split
  · rw [isOpen_found]; rfl
  · rfl

/-- Counting one occurrence keeps the balance. -/
theorem Balanced.count (linked : g.Linked) (h : s.Balanced g (rule.id :: rest))
    (member : rule ∈ terminalFreeRules g) : (s.count g rule.id).Balanced g rest := by
  have known := linked.rule?_id (mem_terminalFreeRules.1 member).1
  have before : (s.remaining.get? rule.id).getD 0 - 1 =
      rule.right.toList.countP s.isOpen + rest.count rule.id := by
    rw [h.remaining rule member]
    simp
  have counted : Balanced g rest { s with
      remaining := s.remaining.insert rule.id ((s.remaining.get? rule.id).getD 0 - 1) } := by
    refine { h with remaining := fun r inRules => ?_ }
    rw [OrderedMap.get?_insert]
    split
    · next same =>
      have : r = rule := Option.some.inj <| by
        rw [← linked.rule?_id (mem_terminalFreeRules.1 inRules).1, same, known]
      rw [before, this]
      rfl
    · next other =>
      rw [h.remaining r inRules, List.count_cons_of_ne (Ne.symm other)]
      rfl
  unfold Search.count
  dsimp only
  split
  · next r zero known' =>
    obtain rfl : rule = r := Option.some.inj (known.symm.trans known')
    refine counted.found (h.nullable_of_zero member ?_) (List.mem_map.2 ⟨rule, member, rfl⟩)
    omega
  · exact counted

theorem mem_nullable_count {m : NonterminalId} (member : m ∈ s.nullable) (r : RuleId) :
    m ∈ (s.count g r).nullable := by
  unfold count
  dsimp only
  split
  · exact mem_nullable_found.2 (.inr member)
  · exact member

theorem Complete.count (linked : g.Linked) (h : s.Balanced g (rule.id :: rest))
    (complete : s.Complete g (rule.id :: rest)) (member : rule ∈ terminalFreeRules g) :
    (s.count g rule.id).Complete g rest := by
  have known := linked.rule?_id (mem_terminalFreeRules.1 member).1
  intro r inRules zero
  rw [isOpen_count] at zero
  by_cases same : r.id = rule.id
  · obtain rfl : r = rule := Option.some.inj <| by
      rw [← linked.rule?_id (mem_terminalFreeRules.1 inRules).1, same, known]
    have left : (s.remaining.get? r.id).getD 0 - 1 = 0 := by
      rw [h.remaining r member]
      simpa using zero
    unfold Search.count
    simp only [left, known]
    exact mem_nullable_found.2 (.inl rfl)
  · refine mem_nullable_count (complete r inRules ?_) _
    rwa [List.count_cons_of_ne (Ne.symm same)]

/-- The nonterminals that have left the work list do not become more or fewer. -/
theorem length_found (waiting : ∀ n ∈ s.pending.toList, n ∈ s.nullable) :
    (s.found n).pending.toList.length + s.nullable.length =
      s.pending.toList.length + (s.found n).nullable.length := by
  unfold found
  split
  · rfl
  · next fresh =>
    rw [WorkList.toList_push, if_neg fun member => fresh (waiting n member)]
    simp only [List.length_append]
    omega

theorem length_count (waiting : ∀ n ∈ s.pending.toList, n ∈ s.nullable) (r : RuleId) :
    (s.count g r).pending.toList.length + s.nullable.length =
      s.pending.toList.length + (s.count g r).nullable.length := by
  unfold count
  dsimp only
  split
  · exact length_found (s := { s with remaining := _ }) waiting
  · rfl

theorem Balanced.length_le (h : s.Balanced g rest) : s.nullable.length ≤ g.rules.size := by
  have lefts := (List.subperm_of_subset h.nodup h.lefts).length_le
  have filtered := List.length_filter_le Rule.isTerminalFree g.rules.values
  rw [List.length_map] at lefts
  rw [OrderedMap.size]
  simp only [terminalFreeRules, OrderedMap.values, List.length_map] at lefts filtered
  omega

/-- Counting some of the occurrences that are left. -/
theorem count_front (linked : g.Linked) {front : List RuleId}
    (known : ∀ r ∈ front, ∃ rule ∈ terminalFreeRules g, rule.id = r)
    (h : s.Balanced g (front ++ rest)) (complete : s.Complete g (front ++ rest)) :
    (front.foldl (Search.count g) s).Balanced g rest ∧
      (front.foldl (Search.count g) s).Complete g rest ∧
      (front.foldl (Search.count g) s).pending.toList.length + s.nullable.length =
        s.pending.toList.length + (front.foldl (Search.count g) s).nullable.length := by
  induction front generalizing s with
  | nil => exact ⟨h, complete, rfl⟩
  | cons r later ih =>
    obtain ⟨⟨rule, member, rfl⟩, others⟩ := List.forall_mem_cons.1 known
    obtain ⟨balanced, complete', length⟩ :=
      ih others (h.count linked member) (complete.count linked h member)
    refine ⟨balanced, complete', ?_⟩
    have first := length_count (g := g) h.waiting rule.id
    rw [List.foldl_cons]
    omega

/-- Counting all occurrences that are left. -/
theorem count_all (linked : g.Linked) {occurrences : List RuleId}
    (known : ∀ r ∈ occurrences, ∃ rule ∈ terminalFreeRules g, rule.id = r)
    (h : s.Balanced g occurrences) (complete : s.Complete g occurrences) :
    (occurrences.foldl (Search.count g) s).Balanced g [] ∧
      (occurrences.foldl (Search.count g) s).Complete g [] ∧
      (occurrences.foldl (Search.count g) s).pending.toList.length + s.nullable.length =
        s.pending.toList.length + (occurrences.foldl (Search.count g) s).nullable.length := by
  rw [← List.append_nil occurrences] at h complete
  exact count_front linked known h complete

end Search

open Search

theorem mem_occurrences {r : RuleId} (member : r ∈ occurrences g n) :
    ∃ rule ∈ terminalFreeRules g, rule.id = r := by
  obtain ⟨rule, inRules, found⟩ := List.mem_flatMap.1 member
  obtain ⟨_, -, same⟩ := List.mem_map.1 found
  exact ⟨rule, inRules, same⟩

/-- Popping `n` closes its occurrences, which are then those to be counted. -/
theorem balanced_pop (linked : g.Linked) {s : Search} {pending : WorkList NonterminalId}
    (h : s.Balanced g []) (popped : s.pending.pop = some (n, pending)) :
    (∀ rule ∈ terminalFreeRules g, rule.right.toList.countP s.isOpen =
      rule.right.toList.countP (isOpen { s with pending }) + (occurrences g n).count rule.id) ∧
    Balanced g (occurrences g n) { s with pending } := by
  have split := WorkList.pop_eq_some popped
  have gone := WorkList.not_mem_of_pop popped
  have closes (X : Symbol) : s.isOpen X =
      (isOpen { s with pending } X || decide (X = .nonterminal n)) := by
    cases X with
    | terminal t => rfl
    | nonterminal m =>
      have : n ∈ s.nullable := h.waiting n (by simp [split])
      rw [Bool.eq_iff_iff]
      simp only [isOpen, Bool.or_eq_true, Bool.not_eq_true', List.contains_eq_mem,
        decide_eq_false_iff_not, WorkList.contains_eq_true, split, List.mem_cons,
        decide_eq_true_eq, Symbol.nonterminal.injEq]
      grind
  have closed : isOpen { s with pending } (.nonterminal n) = false := by
    have : n ∈ s.nullable := h.waiting n (by simp [split])
    rw [Bool.eq_false_iff]
    simp [isOpen, this, gone]
  have balance (rule : Rule) (member : rule ∈ terminalFreeRules g) :
      rule.right.toList.countP s.isOpen =
        rule.right.toList.countP (isOpen { s with pending }) +
          (occurrences g n).count rule.id := by
    rw [occurrences, count_occurrences (nodup_terminalFreeRules linked) member, List.count]
    induction rule.right.toList with
    | nil => rfl
    | cons X rest ih =>
      simp only [List.countP_cons, ih, closes X, Bool.or_eq_true, decide_eq_true_eq, beq_iff_eq]
      by_cases same : X = .nonterminal n
      · simp [same, closed]
        omega
      · simp [same]
        omega
  refine ⟨balance, { h with
    remaining := fun rule member => ?_
    waiting := fun m member => h.waiting m (by simp [split, member]) }⟩
  rw [← balance rule member, h.remaining rule member]
  simp

theorem complete_pop (linked : g.Linked) {s : Search} {pending : WorkList NonterminalId}
    (h : s.Balanced g []) (complete : s.Complete g []) (popped : s.pending.pop = some (n, pending)) :
    Complete g (occurrences g n) { s with pending } := by
  obtain ⟨balance, -⟩ := balanced_pop linked h popped
  intro rule member zero
  rw [← balance rule member] at zero
  exact complete rule member (by simpa using zero)

theorem step_balanced (linked : g.Linked) {s : Search} (h : s.Balanced g [])
    (complete : s.Complete g []) (ongoing : more s = true) :
    (step g s).Balanced g [] ∧ (step g s).Complete g [] ∧
      (step g s).pending.toList.length + s.nullable.length + 1 =
        s.pending.toList.length + (step g s).nullable.length := by
  obtain ⟨n, pending, popped, split⟩ := WorkList.exists_pop ongoing
  rw [step, popped]
  obtain ⟨after, done, length⟩ := count_all linked (fun _ => mem_occurrences)
    (balanced_pop linked h popped).2 (complete_pop linked h complete popped)
  refine ⟨after, done, ?_⟩
  dsimp only at length ⊢
  rw [split, List.length_cons]
  omega

/-- Declaring the left-hand sides of empty rules nullable keeps the balance. -/
theorem foldl_found {rules : List Rule} {s : Search} (h : s.Balanced g [])
    (empty : ∀ rule ∈ rules, rule ∈ terminalFreeRules g ∧ rule.right.toList = []) :
    (rules.foldl (fun s rule => s.found rule.left) s).Balanced g [] ∧
      (rules.foldl (fun s rule => s.found rule.left) s).isOpen = s.isOpen ∧
      ∀ n, n ∈ (rules.foldl (fun s rule => s.found rule.left) s).nullable ↔
        n ∈ s.nullable ∨ ∃ rule ∈ rules, rule.left = n := by
  induction rules generalizing s with
  | nil => simpa using h
  | cons rule rest ih =>
    obtain ⟨⟨member, right⟩, others⟩ := List.forall_mem_cons.1 empty
    have nullable : g.Nullable [.nonterminal rule.left] :=
      Grammar.nullable_of_rule (mem_terminalFreeRules.1 member).1 (right ▸ Grammar.nullable_nil)
    obtain ⟨balanced, same, mem⟩ :=
      ih (h.found nullable (List.mem_map.2 ⟨rule, member, rfl⟩)) others
    refine ⟨balanced, same.trans isOpen_found, fun n => ?_⟩
    rw [List.foldl_cons, mem, mem_nullable_found]
    grind

theorem initial_balanced (linked : g.Linked) :
    (initial g).Balanced g [] ∧ (initial g).Complete g [] := by
  let blank : Search :=
    ⟨.ofList ((terminalFreeRules g).map fun rule => (rule.id, rule.right.size)), [], .empty⟩
  have allOpen (X : Symbol) : blank.isOpen X = true := by cases X <;> rfl
  have balanced : blank.Balanced g [] := by
    constructor
    case remaining =>
      intro rule member
      rw [OrderedMap.get?_ofList (by simpa [Function.comp_def] using nodup_terminalFreeRules linked)]
      refine List.mem_map.2 ⟨rule, member, ?_⟩
      rw [List.countP_eq_length.2 fun X _ => allOpen X]
      simp
    all_goals simp [blank]
  have empty (rule : Rule) (member : rule ∈ (terminalFreeRules g).filter (·.right.isEmpty)) :
      rule ∈ terminalFreeRules g ∧ rule.right.toList = [] := by
    simpa using member
  obtain ⟨after, same, mem⟩ := foldl_found balanced empty
  refine ⟨after, fun rule member zero => (mem _).2 (.inr ⟨rule, ?_, rfl⟩)⟩
  have right : rule.right.toList = [] := by
    have same : (initial g).isOpen = blank.isOpen := same
    rw [List.count_nil, Nat.add_zero, same, List.countP_eq_length.2 fun X _ => allOpen X] at zero
    exact List.length_eq_zero_iff.1 zero
  exact List.mem_filter.2 ⟨member, by simpa using right⟩

/-- The steps allowed are enough for every nonterminal to leave the work list. -/
theorem search_done (linked : g.Linked) :
    let last := iterate more (step g) (g.rules.size + 1) (initial g)
    (last.Balanced g [] ∧ last.Complete g []) ∧ more last = false := by
  refine iterate_done (P := fun s : Search => s.Balanced g [] ∧ s.Complete g [])
    (fun s => g.rules.size + s.pending.toList.length - s.nullable.length)
    (fun s h ongoing => ?_) (initial_balanced linked) ?_
  · obtain ⟨balanced, complete, length⟩ := step_balanced linked h.1 h.2 ongoing
    have := balanced.length_le
    exact ⟨⟨balanced, complete⟩, by omega⟩
  · have start := (initial_balanced linked).1
    have := (List.subperm_of_subset (WorkList.toList_nodup _) start.waiting).length_le
    omega

/-- The computed set holds exactly the nullable nonterminals. -/
theorem mem_nullableSet (linked : g.Linked) :
    n ∈ nullableSet g ↔ g.Nullable [.nonterminal n] := by
  obtain ⟨⟨balanced, complete⟩, done⟩ := search_done linked
  rw [nullableSet]
  generalize iterate more (step g) (g.rules.size + 1) (initial g) = last at *
  refine ⟨balanced.sound n, Grammar.Nullable.induction fun rule member below => ?_⟩
  have idle : last.pending.toList = [] := WorkList.isEmpty_iff.1 (by simpa [more] using done)
  refine complete rule (mem_terminalFreeRules.2 ⟨member, fun X inRight => ?_⟩) ?_
  · obtain ⟨m, rfl, -⟩ := below X inRight
    rfl
  · rw [List.count_nil, Nat.add_zero, List.countP_eq_zero]
    intro X inRight
    obtain ⟨m, rfl, known⟩ := below X inRight
    simp [isOpen, known, idle]

end Lalr.Nullability
