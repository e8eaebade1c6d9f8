import Lalr.Proofs.Automaton.Kernels
import Lalr.Proofs.First.Returned
import Lalr.Proofs.Weight
import Mathlib.Algebra.BigOperators.Ring.List

/-! How many steps the loops of the construction take. What is put back into a work list has
gained a lookahead, so the items, states and lookaheads that have been found pay for the steps: each
of them for one. The bounds are on what is found, not on what could be. -/
namespace Lalr

open Grammar LookaheadSet

variable {g : Grammar} {first : FirstSets} {kernel old : ItemSet} {n : Nat}

namespace Closing

variable {c : Closing}

def start (kernel : ItemSet) : Closing := ⟨kernel, .ofList kernel.keys⟩

theorem paid_demand (lookaheads : TerminalSet) (c : Closing) (rule : Rule) :
    (demand lookaheads c rule).pending.toList.length + c.items.credit ≤
      c.pending.toList.length + (demand lookaheads c rule).items.credit := by
  have pushed := WorkList.length_push_le c.pending ⟨rule.id, 0⟩
  unfold demand
  dsimp only
  split
  · next fresh =>
    have less : c.items.credit < (c.items.insert ⟨rule.id, 0⟩ lookaheads).credit :=
      OrderedMap.credit_lt_insert lookaheads (OrderedMap.get?_eq_none_iff.1 fresh)
    dsimp only
    omega
  · next own entry =>
    split
    · exact Nat.le_refl _
    · next grows =>
      have less : c.items.credit < (c.items.insert ⟨rule.id, 0⟩ (own ∪ lookaheads)).credit :=
        OrderedMap.credit_lt_of_grows entry grows
      dsimp only
      omega

theorem paid_foldl (lookaheads : TerminalSet) (c : Closing) (rules : List Rule) :
    (rules.foldl (demand lookaheads) c).pending.toList.length + c.items.credit ≤
      c.pending.toList.length + (rules.foldl (demand lookaheads) c).items.credit := by
  induction rules generalizing c with
  | nil => exact Nat.le_refl _
  | cons rule rest ih =>
    have here := paid_demand lookaheads c rule
    have later := ih (demand lookaheads c rule)
    rw [List.foldl_cons]
    omega

/-- A step uses up one waiting item, and all that it adds to the list is paid for. -/
theorem paid_step (first : FirstSets) (ongoing : c.more = true) :
    (step g first c).pending.toList.length + 1 + c.items.credit ≤
      c.pending.toList.length + (step g first c).items.credit := by
  obtain ⟨i, pending, popped, split⟩ := WorkList.exists_pop ongoing
  have paid : (expand g first { c with pending } i).pending.toList.length + c.items.credit ≤
      pending.toList.length + (expand g first { c with pending } i).items.credit := by
    unfold expand
    split
    · exact paid_foldl _ { c with pending } _
    · exact Nat.le_refl _
  rw [step, popped, split, List.length_cons]
  dsimp only
  omega

theorem paid_repeat (ongoing : ∀ k < n, (k.repeat (step g first) c).more = true) :
    n + (n.repeat (step g first) c).pending.toList.length + c.items.credit ≤
      c.pending.toList.length + (n.repeat (step g first) c).items.credit := by
  induction n with
  | zero => exact Nat.le_of_eq (congrArg (· + _) (Nat.zero_add _))
  | succ n ih =>
    have before := ih fun k less => ongoing k (Nat.lt_succ_of_lt less)
    have last := paid_step (g := g) first (ongoing n (Nat.lt_succ_self n))
    rw [Nat.repeat]
    omega

/-- The computation of the closure takes `n` entries from its list, which is then empty. -/
structure Takes (g : Grammar) (kernel : ItemSet) (n : Nat) : Prop where
  ongoing : ∀ k < n, (k.repeat (step g (.compute g)) (start kernel)).more = true
  done : (n.repeat (step g (.compute g)) (start kernel)).more = false
  items : (n.repeat (step g (.compute g)) (start kernel)).items = closure g (.compute g) kernel

theorem exists_takes (linked : g.Linked) (kernel : ItemSet) : ∃ n, Takes g kernel n := by
  obtain ⟨-, done⟩ := iterate_done (P := Valid g kernel) (measure g kernel)
    (fun c h ongoing => step_valid linked h ongoing) (initial_valid g kernel) measure_initial
  obtain ⟨n, -, eq, ongoing⟩ := iterate_eq_repeat more (step g (.compute g))
    ((kernel.size + g.rules.size) * (UInt16.size + 1)) (start kernel)
  exact ⟨n, ongoing, eq ▸ done, congrArg Closing.items eq.symm⟩

theorem Takes.le_credit (h : Takes g kernel n) : n ≤ (closure g (.compute g) kernel).credit := by
  have paid := paid_repeat h.ongoing
  have waiting : (start kernel).pending.toList.length ≤ kernel.size :=
    kernel.length_keys ▸ WorkList.length_ofList_le kernel.keys
  have own : kernel.size ≤ (start kernel).items.credit := Nat.le_add_right _ _
  rw [h.items] at paid
  omega

end Closing

/-- Closures have only lookaheads that are declared if their kernels do. -/
theorem closure_credit_le (linked : g.Linked)
    (declared : ∀ i t, kernel.lookaheadSet.lookahead i t → t ∈ g.terminals.keys) :
    (closure g (.compute g) kernel).credit ≤
      (closure g (.compute g) kernel).size * (1 + g.terminals.size) := by
  rw [← g.terminals.length_keys]
  refine OrderedMap.credit_le fun i t member => ?_
  have closed : (closure g (.compute g) kernel).lookaheadSet.lookahead i t := member
  rw [lookaheadSet_closure linked] at closed
  exact CloseLookahead.declared linked declared closed

namespace Construction

variable {c c' : Construction} {edges edges' : OrderedMap Symbol Nat}

/-- The visits that a construction pays for: one for each state and one for each lookahead of its
kernel. -/
def credit (c : Construction) : Nat :=
  c.kernels.size + (c.kernels.toList.map fun K : ItemSet => K.weight).sum

def visitBound (g : Grammar) (c : Construction) : Nat :=
  c.kernels.size + (c.kernels.toList.map fun K : ItemSet => K.size).sum * g.terminals.size

theorem paid_merge {i : Nat} (entry : c.kernels[i]? = some old) (same : old.keys = kernel.keys) :
    (c.merge i kernel).pending.toList.length + c.credit ≤
      c.pending.toList.length + (c.merge i kernel).credit := by
  rcases merge_cases kernel entry with ⟨-, eq⟩ | ⟨grows, eq⟩
  · rw [eq]
  · have pushed := WorkList.length_push_le c.pending i
    have less : old.weight < (old.absorb kernel).weight :=
      OrderedMap.weight_lt_of_grows (ItemSet.keys_absorb same)
        (fun a t member => ItemSet.lookahead_absorb.2 (.inl member)) grows
    have sums := sum_map_set (f := fun K : ItemSet => K.weight) (b := old.absorb kernel)
      (show c.kernels.toList[i]? = some old by rw [Array.getElem?_toList, entry])
    rw [eq, credit, credit]
    dsimp only
    rw [Array.size_setIfInBounds, Array.toList_setIfInBounds]
    omega

theorem paid_extend (c : Construction) (kernel : ItemSet) :
    (c.extend kernel).pending.toList.length + c.credit ≤
      c.pending.toList.length + (c.extend kernel).credit := by
  have pushed := WorkList.length_push_le c.pending c.kernels.size
  have credit : (c.extend kernel).credit = c.credit + 1 + kernel.weight := by
    simp only [Construction.credit, extend, Array.size_push, Array.toList_push, List.map_append,
      List.map_singleton, List.sum_append, List.sum_singleton]
    omega
  rw [credit, extend]
  dsimp only
  omega

theorem paid_internAll {entries : List (Symbol × ItemSet)} (h : Sound g c)
    (contains : ∀ e ∈ entries, g.Contains (ItemSet.lookaheadSet e.2))
    (done : c.internAll edges entries = .ok (edges', c')) :
    c'.pending.toList.length + c.credit ≤ c.pending.toList.length + c'.credit :=
  internAll_relates (P := g.Contains)
    (R := fun c c' => c'.pending.toList.length + c.credit ≤ c.pending.toList.length + c'.credit)
    (fun _ => Nat.le_refl _) (fun _ _ _ first second => by omega) (fun _ contains => contains)
    (fun _ _ _ _ _ entry same => paid_merge entry same) (fun c kernel _ _ => paid_extend c kernel)
    h contains done

/-- A visit uses up one waiting state, and all that it adds to the list is paid for. -/
theorem paid_step (linked : g.Linked) (h : Valid g c) (ongoing : more c = true)
    (done : step g (.compute g) c = .ok c') :
    c'.pending.toList.length + 1 + c.credit ≤ c.pending.toList.length + c'.credit := by
  obtain ⟨i, pending, K, popped, entry, sound, successor, visit⟩ := exists_visit linked h ongoing
  obtain ⟨⟨edges, c₁⟩, interned, rfl⟩ := map_eq_ok (visit.symm.trans done)
  have paid := paid_internAll sound (fun e member => (successor e member).2) interned
  rw [WorkList.pop_eq_some popped, List.length_cons]
  change c₁.pending.toList.length + 1 + c.credit ≤ _ + c₁.credit
  change c₁.pending.toList.length + c.credit ≤ pending.toList.length + c₁.credit at paid
  omega

/-- What the loop has come to after a number of visits. It starts only with an accepting rule. -/
inductive After (g : Grammar) : Nat → Construction → Prop where
  | initial : g.acceptRule.isSome → After g 0 .initial
  | visit {n : Nat} {c c' : Construction} : After g n c → c.more = true →
      step g (.compute g) c = .ok c' → After g (n + 1) c'

theorem After.accept (h : After g n c) : g.acceptRule.isSome := by
  induction h with
  | initial accept => exact accept
  | visit _ _ _ ih => exact ih

theorem After.valid (linked : g.Linked) (h : After g n c) : Valid g c := by
  induction h with
  | initial accept => exact initial_valid linked accept
  | visit _ ongoing done ih => exact (step_valid linked ih ongoing done).1

/-- At any time the visits made and the states that wait have been paid for. -/
theorem After.paid (linked : g.Linked) (h : After g n c) :
    n + c.pending.toList.length ≤ c.credit := by
  induction h with
  | initial => exact Nat.le_add_right _ _
  | visit before ongoing done ih =>
    have paid := paid_step linked (before.valid linked) ongoing done
    omega

def Declared (g : Grammar) (c : Construction) : Prop :=
  ∀ (i : Nat) (K : ItemSet), c.kernels[i]? = some K →
    ∀ a t, K.lookaheadSet.lookahead a t → t ∈ g.terminals.keys

theorem step_declared (linked : g.Linked) (valid : Valid g c) (h : Declared g c)
    (ongoing : c.more = true) (done : step g (.compute g) c = .ok c') : Declared g c' := by
  obtain ⟨i, pending, K, -, entry, sound, successor, visit⟩ := exists_visit linked valid ongoing
  obtain ⟨⟨edges, c₁⟩, interned, rfl⟩ := map_eq_ok (visit.symm.trans done)
  have advanced (X : Symbol) (a : Item) (t : TerminalId)
      (member : ((K.lookaheadSet.close g).advance g X).lookahead a t) : t ∈ g.terminals.keys := by
    obtain ⟨b, closed, -, -⟩ := member
    exact CloseLookahead.declared linked (h i K entry) closed
  have declared : Declared g c₁ := internAll_kernels (c := { c with pending })
    (P := fun M => ∀ a t, M.lookahead a t → t ∈ g.terminals.keys)
    (fun _ _ _ new _ old a t member =>
      (ItemSet.lookahead_absorb.1 member).elim (old a t) (new a t))
    (fun _ _ _ new => new) sound (fun e member => (successor e member).2)
    (fun e member => (successor e member).1 ▸ advanced e.1) interned h
  exact declared

theorem After.declared (linked : g.Linked) (endOfInput : .endOfInput ∈ g.terminals.keys)
    (h : After g n c) : Declared g c := by
  induction h with
  | initial =>
    intro i K entry a t member
    obtain ⟨inside, rfl⟩ := Array.getElem?_eq_some_iff.1 entry
    obtain rfl : i = 0 := Nat.lt_one_iff.1 inside
    have first : firstKernel.lookaheadSet.lookahead a t := member
    rw [lookaheadSet_firstKernel] at first
    exact first.2 ▸ endOfInput
  | visit before ongoing done ih => exact step_declared linked (before.valid linked) ih ongoing done

theorem Declared.credit_le (h : Declared g c) : c.credit ≤ c.visitBound g := by
  have weights : (c.kernels.toList.map fun K : ItemSet => K.weight).sum ≤
      (c.kernels.toList.map fun K : ItemSet => K.size * g.terminals.size).sum := by
    refine List.sum_le_sum fun K member => ?_
    obtain ⟨i, entry⟩ := List.mem_iff_getElem?.1 member
    rw [Array.getElem?_toList] at entry
    rw [← OrderedMap.length_keys g.terminals]
    exact OrderedMap.weight_le _ (h i K entry)
  rw [List.sum_map_mul_right] at weights
  exact Nat.add_le_add_left weights _

/-- The loop ends with nothing waiting, or at a visit that needs one state too many. -/
theorem exists_after (linked : g.Linked) (accept : g.acceptRule.isSome) :
    ∃ n c, After g n c ∧
      (c.more = false ∧ Automaton.construct g (.compute g) =
          .ok ⟨c.kernels.zipWith (finish g (.compute g)) c.edges⟩ ∨
        c.more = true ∧ step g (.compute g) c = .error .tooManyStates ∧
          Automaton.construct g (.compute g) = .error .tooManyStates) := by
  have keep (s t : Construction) : (∃ n, After g n s) → s.more = true →
      step g (.compute g) s = .ok t → ∃ n, After g n t :=
    fun ⟨n, after⟩ ongoing done => ⟨n + 1, after.visit ongoing done⟩
  have start : ∃ n, After g n .initial := ⟨0, .initial accept⟩
  rw [Automaton.construct_eq accept]
  cases loop : iterateExcept more (step g (.compute g)) (visitLimit g) .initial with
  | ok c =>
    obtain ⟨n, after⟩ := iterateExcept_invariant keep _ _ start loop
    exact ⟨n, c, after, .inl ⟨more_eq_false.2 (loop_valid linked accept loop).2, rfl⟩⟩
  | error e =>
    obtain ⟨c, ⟨n, after⟩, ongoing, failed⟩ :=
      exists_of_iterateExcept_eq_error keep _ _ start loop
    cases e
    exact ⟨n, c, after, .inr ⟨ongoing, failed, rfl⟩⟩

end Construction

/-- The loop over the states ends, with nothing waiting or with too many states. It makes no more
visits than one for each state and one for each item of its kernel and each terminal; the failing
visit is counted. The computation of a closure takes no more entries than one for each item of the
result, and one for each of these and each terminal. -/
theorem construct_visits (h : g.Returned) :
    (g.acceptRule = none ∧ Automaton.construct g (.compute g) = .ok ⟨#[]⟩ ∨
      ∃ n c, Construction.After g n c ∧
        (c.more = false ∧ n ≤ c.visitBound g ∧ Automaton.construct g (.compute g) =
            .ok ⟨c.kernels.zipWith (Construction.finish g (.compute g)) c.edges⟩ ∨
          c.more = true ∧ n + 1 ≤ c.visitBound g ∧
            Construction.step g (.compute g) c = .error .tooManyStates ∧
            Automaton.construct g (.compute g) = .error .tooManyStates)) ∧
    ∀ (n : Nat) (c : Construction) (i : Nat) (K : ItemSet), Construction.After g n c →
      c.kernels[i]? = some K →
      ∃ m, Closing.Takes g K m ∧
        m ≤ (closure g (.compute g) K).size * (1 + g.terminals.size) := by
  have linked := h.linked
  constructor
  · cases accepts : g.acceptRule with
    | none =>
      refine .inl ⟨rfl, ?_⟩
      rw [Automaton.construct, accepts]
    | some rule =>
      have accept : g.acceptRule.isSome := by rw [accepts]; rfl
      obtain ⟨n, c, after, ends⟩ := Construction.exists_after linked accept
      have paid := after.paid linked
      have le := (after.declared linked h.endOfInput).credit_le
      refine .inr ⟨n, c, after, ?_⟩
      rcases ends with ⟨done, built⟩ | ⟨ongoing, failed⟩
      · exact .inl ⟨done, by omega, built⟩
      · obtain ⟨i, pending, -, split⟩ := WorkList.exists_pop ongoing
        rw [split, List.length_cons] at paid
        exact .inr ⟨ongoing, by omega, failed⟩
  · intro n c i K after entry
    obtain ⟨m, takes⟩ := Closing.exists_takes linked K
    have declared := after.declared linked h.endOfInput i K entry
    exact ⟨m, takes, Nat.le_trans takes.le_credit (closure_credit_le linked declared)⟩

/-- The loop ends for nested pairs, with five states. -/
theorem construct_visits_nestedPairs : ∃ g n c, Grammar.define nestedPairs = .ok g ∧
    g.Returned ∧ Construction.After g n c ∧ c.more = false ∧ c.kernels.size = 5 ∧
    n ≤ c.visitBound g := by
  have check : Automaton.passes nestedPairs
      (fun g a => g.acceptRule.isSome ∧ a.states.size = 5) = true := by
    decide +kernel
  obtain ⟨g, a, defined, built, check⟩ := Automaton.exists_of_passes check
  obtain ⟨accept, size⟩ := of_decide_eq_true check
  have returned : g.Returned := .define defined
  rcases (construct_visits returned).1 with ⟨none, -⟩ | ⟨n, c, after, ends⟩
  · rw [none] at accept
    cases accept
  rcases ends with ⟨done, le, built'⟩ | ⟨-, -, -, failed⟩
  · have same := built.symm.trans built'
    cases same
    have edges := (after.valid returned.linked).sound.edges
    refine ⟨g, n, c, defined, returned, after, done, ?_, le⟩
    rwa [Array.size_zipWith, edges, Nat.min_self] at size
  · cases built.symm.trans failed

end Lalr
