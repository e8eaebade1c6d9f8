import Lalr.Proofs.Automaton.Visits

/-! How far the markers of items get. An item whose marker is behind `n` symbols has been moved `n`
times, each time into a state found later, so that it stands in a state with at least the number
`n`. As states are numbered with 16 bits, markers fit into 16 bits as well. But where the last state
has an item with the largest marker and a symbol behind it, the marker runs over before the number
of states is looked at. -/
namespace Lalr

open Grammar LookaheadSet

variable {g : Grammar} {n i : Nat} {K : ItemSet} {a : Item}

namespace Construction

variable {c c' : Construction}

theorem After.ranked (linked : g.Linked) (h : After g n c) : c.Ranked := by
  induction h with
  | initial => exact ranked_initial
  | visit before ongoing done ih => exact step_ranked linked (before.valid linked) ih ongoing done

theorem After.faithful (linked : g.Linked) (short : g.AcceptFits) (h : After g n c) :
    Faithful g c := by
  induction h with
  | initial accept => exact initial_faithful linked accept
  | visit _ ongoing done ih => exact step_faithful linked short ih ongoing done

def Visited (g : Grammar) (i : Nat) (K : ItemSet) : Prop :=
  ∃ n c pending, After g n c ∧ c.pending.pop = some (i, pending) ∧ c.kernels[i]? = some K

theorem Visited.marker_le (linked : g.Linked) (h : Visited g i K)
    (member : a ∈ (closure g (.compute g) K).keys) : a.marker ≤ i := by
  obtain ⟨n, c, pending, after, -, entry⟩ := h
  have closed : (closure g (.compute g) K).lookaheadSet.core a := member
  rw [lookaheadSet_closure linked] at closed
  exact marker_le_of_closeCore (after.ranked linked i K entry) closed

theorem Visited.lt_stateLimit (linked : g.Linked) (h : Visited g i K) : i < stateLimit := by
  obtain ⟨n, c, pending, after, -, entry⟩ := h
  exact Nat.lt_of_lt_of_le (Array.getElem?_eq_some_iff.1 entry).1 (after.valid linked).sound.limit

end Construction

/-- When the automaton is finished, an item that is reached has been moved to the end of its rule,
and the state there has a number of 16 bits. -/
theorem Automaton.size_lt_of_core {γ : List Symbol} (linked : g.Linked)
    (accept : g.acceptRule.isSome) (short : g.AcceptFits) {automaton : Automaton}
    (built : Automaton.construct g (.compute g) = .ok automaton) {rule : Rule}
    (known : g.rule? a.rule = some rule) (core : (g.canonical γ).core a) :
    rule.right.size < stateLimit := by
  obtain ⟨c, finished⟩ := exists_built linked accept short built
  obtain ⟨δ, rule', known', -, -, start⟩ := linked.core_split accept core
  cases known.symm.trans known'
  have ended := core_take known start (Nat.le_refl rule.right.size)
  rw [canonical_eq_close] at ended
  rcases finished.walk_cases (δ ++ rule.right.toList.take rule.right.size) with
    ⟨-, empty⟩ | ⟨i, -, -, K, entry, cores, -⟩
  · obtain ⟨b, inKernel⟩ := ended.exists_kernel
    exact absurd inKernel (empty b)
  · have small : rule.right.size ≤ i := Construction.marker_le_of_closeCore
      (fun b inKernel => finished.faithful.ranked i K entry b ((cores b).2 inKernel)) ended
    have limit := finished.faithful.valid.sound.limit
    have inside := (Array.getElem?_eq_some_iff.1 entry).1
    omega

/-- An item that the visit of state `i` moves has its marker behind at most `i` symbols, so that,
except in the last state that has a number, the marker does not run over. If that of the accepting
rule cannot do so either, an item of a rule with more symbols than a marker can be behind makes the
construction fail. -/
theorem construct_markers (h : g.Returned) (visited : Construction.Visited g i K) :
    (∀ a ∈ (closure g (.compute g) K).keys, ∀ X, a.nextSymbol g = some X →
      a.marker ≤ i ∧ (i ≠ 65535 → a.marker + 1 ≤ 65535 ∧ a.advance = a.moved)) ∧
    (g.AcceptFits → ∀ rule ∈ g.rules.values, 65535 < rule.right.size →
      (∃ k, ⟨rule.id, k⟩ ∈ (closure g (.compute g) K).keys) →
        Automaton.construct g (.compute g) = .error .tooManyStates) := by
  have linked := h.linked
  have last : i < 65536 := visited.lt_stateLimit linked
  refine ⟨fun a member X _ => ?_, fun short rule inRules long ⟨k, member⟩ => ?_⟩
  · have le := visited.marker_le linked member
    refine ⟨le, fun other => ?_⟩
    have less : a.marker < 65535 := by omega
    exact ⟨less, Item.advance_eq_moved less⟩
  · obtain ⟨n, c, pending, after, -, entry⟩ := visited
    obtain ⟨γ, leads⟩ := ((after.faithful linked short).merges i K entry).reached
    have core : (closure g (.compute g) K).lookaheadSet.core ⟨rule.id, k⟩ := member
    rw [lookaheadSet_closure linked] at core
    cases built : Automaton.construct g (.compute g) with
    | error e =>
      cases e
      rfl
    | ok automaton =>
      have small : rule.right.size < 65536 := Automaton.size_lt_of_core linked after.accept short
        built (linked.rule?_id inRules) (leads.close.1 core)
      omega

def Builder.leadTo (steps : List Declaration) (test : Builder → Bool) : Bool :=
  match steps.foldlM Builder.attempt Builder.initial with
  | .error _ => false
  | .ok b => test b

/-- A rule can be declared after other steps, however long its right-hand side is. -/
theorem Grammar.exists_define_rule (steps : List Declaration) (rules : List (RuleId × Rule))
    (mentioned : List Symbol) {r : RuleId} {left : NonterminalId} {right : List Symbol}
    (lead : Builder.leadTo steps (fun b => b.rules.toList = rules ∧ b.nextRule = r ∧
      b.start = none ∧ b.nonterminals.contains left ∧ mentioned.all b.allowsOnRight) = true)
    (other : left ≠ .start) (allowed : ∀ X ∈ right, X ∈ mentioned)
    (fresh : ∀ e ∈ rules, e.2.left ≠ left)
    (nodup : (RuleId.accept :: rules.map Prod.fst ++ [r]).Nodup) :
    ∃ g, Grammar.define (steps ++ [.rule left right none]) = .ok g ∧
      g.rules.toList =
        (.accept, Builder.acceptingRule ((rules.head?.map (·.2.left)).getD left)) ::
          rules ++ [(r, ⟨r, left, right.toArray, none, none⟩)] := by
  unfold Builder.leadTo at lead
  cases done : steps.foldlM Builder.attempt Builder.initial with
  | error e => simp [done] at lead
  | ok b =>
    rw [done] at lead
    obtain ⟨known, next, start, declared, symbols⟩ := of_decide_eq_true lead
    have right_ok : right.all b.allowsOnRight = true :=
      List.all_eq_true.2 fun X member => List.all_eq_true.1 symbols X (allowed X member)
    have new : (b.rules.values.any fun rule => rule.left = left && rule.right.toList = right) =
        false := by
      refine List.any_eq_false.2 fun rule member => ?_
      rw [OrderedMap.values, known] at member
      obtain ⟨e, inRules, rfl⟩ := List.mem_map.1 member
      simp [fresh e inRules]
    have absent : r ∉ rules.map Prod.fst := by
      have parts := List.nodup_append.1 (List.nodup_cons.1 nodup).2
      exact fun member => parts.2.2 r member r (List.mem_singleton_self r) rfl
    have added : (b.rules.insert r ⟨r, left, right.toArray, none, none⟩).toList =
        rules ++ [(r, ⟨r, left, right.toArray, none, none⟩)] := by
      rw [← known] at absent ⊢
      exact OrderedMap.put_of_not_mem _ absent
    have ruled : b.call (.rule left right none) = (.ok r, { b with
        rules := b.rules.insert r ⟨r, left, right.toArray, none, none⟩
        nextRule := b.nextRule.next }) := by
      simp [Builder.call_rule, other, declared, right_ok, new, next]
    have step : b.attempt (.rule left right none) = .ok { b with
        rules := b.rules.insert r ⟨r, left, right.toArray, none, none⟩
        nextRule := b.nextRule.next } := by
      have declare : b.declare (.rule left right none) = _ := Builder.call_map_of_ok ruled _
      rw [Builder.attempt, declare]
    refine ⟨Builder.finish { b with
        rules := b.rules.insert r ⟨r, left, right.toArray, none, none⟩
        nextRule := b.nextRule.next }, ?_, ?_⟩
    · rw [Grammar.define, List.foldlM_append, done]
      simp only [bind, Except.bind, List.foldlM_cons, step]
      rfl
    have first : Builder.effectiveStart { b with
        rules := b.rules.insert r ⟨r, left, right.toArray, none, none⟩
        nextRule := b.nextRule.next } = some ((rules.head?.map (·.2.left)).getD left) := by
      rw [Builder.effectiveStart, OrderedMap.values]
      dsimp only
      rw [start, added]
      cases rules <;> rfl
    simp only [Builder.finish]
    rw [first, added]
    exact OrderedMap.toList_ofList (by simpa using nodup)

/-- Where the accepting rule comes first, it is found under its identifier. -/
theorem Grammar.acceptRule_eq {s : NonterminalId} {others : List (RuleId × Rule)}
    (rules : g.rules.toList = (.accept, Builder.acceptingRule s) :: others) :
    g.acceptRule = some (Builder.acceptingRule s) :=
  OrderedMap.mem_toList_iff.1 (rules ▸ List.mem_cons_self)

/-- `S := S a ... a` -/
def leftChain (n : Nat) : List Declaration :=
  [.terminal "a" none, .nonterminal "S",
    .rule ⟨1⟩ (.nonterminal ⟨1⟩ :: List.replicate n (.terminal ⟨3⟩)) none]

def leftChainRule (n : Nat) : Rule :=
  ⟨⟨1⟩, ⟨1⟩, (.nonterminal ⟨1⟩ :: List.replicate n (.terminal ⟨3⟩)).toArray, none, none⟩

@[simp] theorem size_leftChainRule (n : Nat) : (leftChainRule n).right.size = n + 1 := by
  simp [leftChainRule]

theorem leftChain_defined (n : Nat) : ∃ g, Grammar.define (leftChain n) = .ok g ∧
    g.rules.toList = [(.accept, Builder.acceptingRule ⟨1⟩), (⟨1⟩, leftChainRule n)] :=
  exists_define_rule [.terminal "a" none, .nonterminal "S"] []
    [.nonterminal ⟨1⟩, .terminal ⟨3⟩] (by decide +kernel) (by decide)
    (by simp +contextual [List.mem_replicate]) (by simp) (by decide)

namespace Construction

variable {c : Construction} {k : Nat}

/-- What the construction for `leftChain` has come to after `k` visits: the state found last waits,
and it has the item whose marker is behind `k` symbols. -/
structure Climbs (g : Grammar) (k : Nat) (c : Construction) : Prop where
  size : c.kernels.size = k + 1
  pending : c.pending.toList = [k]
  top : ∃ K : ItemSet, c.kernels[k]? = some K ∧ CloseCore g K.lookaheadSet ⟨⟨1⟩, k⟩ ∧
    ∀ a, CloseCore g K.lookaheadSet a → a = ⟨.accept, k⟩ ∨ a = ⟨⟨1⟩, k⟩

theorem Climbs.more (h : Climbs g k c) : c.more = true := by
  refine Bool.eq_true_of_not_eq_false fun done => ?_
  cases h.pending.symm.trans (more_eq_false.1 done)

section leftChain

variable (rules : g.rules.toList = [(.accept, Builder.acceptingRule ⟨1⟩), (⟨1⟩, leftChainRule n)])

include rules

theorem next_leftChain :
    (⟨⟨1⟩, k⟩ : Item).nextSymbol g = (leftChainRule n).right.toList[k]? := by
  have known : g.rule? ⟨1⟩ = some (leftChainRule n) := OrderedMap.mem_toList_iff.1 (by simp [rules])
  rw [Item.nextSymbol, known, Option.bind_some, Array.getElem?_toList]

/-- The items behind `k` symbols go on with the same symbol, if at all. -/
theorem next_of_leftChain {X : Symbol} (item : a = ⟨.accept, k⟩ ∨ a = ⟨⟨1⟩, k⟩)
    (next : a.nextSymbol g = some X) : (leftChainRule n).right.toList[k]? = some X := by
  rcases item with rfl | rfl
  · have known : g.rule? .accept = some (Builder.acceptingRule ⟨1⟩) := g.acceptRule_eq rules
    rw [Item.nextSymbol, known, Option.bind_some] at next
    cases k with
    | zero => exact next
    | succ k => simp [Builder.acceptingRule] at next
  · exact (next_leftChain rules).symm.trans next

/-- Only in the first state is there something to expand. -/
theorem closeCore_leftChain {M : LookaheadSet}
    (only : ∀ a, M.core a → a = ⟨.accept, k⟩ ∨ a = ⟨⟨1⟩, k⟩) (h : CloseCore g M a) :
    a = ⟨.accept, k⟩ ∨ a = ⟨⟨1⟩, k⟩ := by
  induction h with
  | kernel inKernel => exact only _ inKernel
  | @expand i rule _ inRules next ih =>
    have values : rule = Builder.acceptingRule ⟨1⟩ ∨ rule = leftChainRule n := by
      simpa [OrderedMap.values, rules] using inRules
    have symbol := next_of_leftChain rules ih next
    cases k with
    | zero =>
      obtain rfl : rule = leftChainRule n := by
        refine values.resolve_left fun accepting => ?_
        subst accepting
        simp [leftChainRule, Builder.acceptingRule, NonterminalId.start] at symbol
      exact .inr rfl
    | succ k => simp [leftChainRule, List.getElem?_replicate] at symbol

theorem climbs_initial : Climbs g 0 .initial where
  size := rfl
  pending := rfl
  top := by
    have kernel : firstKernel.lookaheadSet = .initial := lookaheadSet_firstKernel
    refine ⟨firstKernel, rfl, ?_, fun a => closeCore_leftChain rules fun a core => ?_⟩
    · rw [kernel]
      have known : g.rule? .accept = some (Builder.acceptingRule ⟨1⟩) := g.acceptRule_eq rules
      have inRules : leftChainRule n ∈ g.rules.values := by simp [OrderedMap.values, rules]
      refine .expand (.kernel (i := .initial) rfl) inRules ?_
      rw [Item.nextSymbol, Item.initial, known]
      rfl
    · rw [kernel] at core
      exact .inl core

/-- The state found last leads to one new state, in which the marker is one further. -/
theorem climbs_step (linked : g.Linked) (valid : Valid g c) (ranked : c.Ranked)
    (climbs : Climbs g k c) (le : k ≤ n) (small : k + 1 < stateLimit) :
    c.more = true ∧ ∃ c', step g (.compute g) c = .ok c' ∧ Climbs g (k + 1) c' := by
  have ongoing := climbs.more
  refine ⟨ongoing, ?_⟩
  obtain ⟨size, waits, K, entry, here, only⟩ := climbs
  obtain ⟨i, pending, K', popped, entry', -, successor, visit⟩ := exists_visit linked valid ongoing
  obtain ⟨rfl, idle⟩ := List.cons.inj (waits.symm.trans (WorkList.pop_eq_some popped))
  cases entry.symm.trans entry'
  obtain ⟨X, symbol⟩ : ∃ X, (leftChainRule n).right.toList[k]? = some X :=
    ⟨_, List.getElem?_eq_getElem (by simpa using Nat.lt_succ_of_le le)⟩
  have closed : (closure g (.compute g) K).lookaheadSet = K.lookaheadSet.close g :=
    lookaheadSet_closure linked K
  have keys (Y : Symbol) : Y ∈ (successors g (closure g (.compute g) K)).keys ↔ Y = X := by
    rw [mem_keys_successors, closed]
    constructor
    · rintro ⟨-, a, core, next, -⟩
      exact Option.some.inj ((next_of_leftChain rules (only a core) next).symm.trans symbol)
    · rintro rfl
      exact ⟨_, _, here, (next_leftChain rules).trans symbol, rfl⟩
  obtain ⟨M, alone⟩ := OrderedMap.toList_eq_singleton keys
  have fits : K.Fits g := fun a X core _ => by
    rcases only a core with rfl | rfl <;> exact Nat.lt_of_succ_lt_succ small
  have goto : ItemSet.lookaheadSet M.sortKeys = (K.lookaheadSet.close g).goto g X := by
    rw [ItemSet.lookaheadSet_sortKeys, ← fits.advance_eq_goto]
    exact (successor (X, M) (by simp [alone])).1
  have moved : (ItemSet.lookaheadSet M.sortKeys).core ⟨⟨1⟩, k + 1⟩ := by
    rw [goto]
    exact ⟨_, here, (next_leftChain rules).trans symbol, rfl⟩
  -- Earlier states have no marker as far as this.
  have fresh : c.numbers[(OrderedMap.sortKeys M).keys]? = none := by
    cases known : c.numbers[(OrderedMap.sortKeys M).keys]? with
    | none => rfl
    | some j =>
      obtain ⟨L, there, same⟩ := (valid.sound.numbers _ _).1 known
      have inside := (Array.getElem?_eq_some_iff.1 there).1
      have high : k + 1 ≤ j := ranked j L there ⟨⟨1⟩, k + 1⟩ (same ▸ moved)
      omega
  have interned : { c with pending }.intern M.sortKeys =
      .ok (c.kernels.size, { c with pending }.extend M.sortKeys) := by
    have room : ¬ stateLimit ≤ c.kernels.size := by omega
    simp only [intern, fresh, if_neg room, extend]
  rw [visit, alone, internAll, interned]
  refine ⟨_, rfl, ⟨?_, ?_, M.sortKeys, ?_, .kernel moved, fun a => closeCore_leftChain rules ?_⟩⟩
  · simp [extend, size]
  · change (pending.push c.kernels.size).toList = [k + 1]
    rw [WorkList.toList_push, ← idle, size]
    rfl
  · change (c.kernels.push (OrderedMap.sortKeys M))[k + 1]? = some (OrderedMap.sortKeys M)
    rw [Array.getElem?_push, if_pos size.symm]
  · rw [goto]
    rintro - ⟨a, core, -, rfl⟩
    exact (only a core).imp (congrArg Item.moved) (congrArg Item.moved)

theorem exists_climbs (linked : g.Linked) (le : k ≤ n) (small : k < stateLimit) :
    ∃ c, After g k c ∧ Climbs g k c := by
  induction k with
  | zero =>
    have accept : g.acceptRule.isSome := Option.isSome_of_eq_some (g.acceptRule_eq rules)
    exact ⟨.initial, .initial accept, climbs_initial rules⟩
  | succ k ih =>
    obtain ⟨c, after, climbs⟩ := ih (Nat.le_of_succ_le le) (Nat.lt_of_succ_lt small)
    obtain ⟨ongoing, c', done, climbs'⟩ := climbs_step rules linked (after.valid linked)
      (after.ranked linked) climbs (Nat.le_of_succ_le le) small
    exact ⟨c', after.visit ongoing done, climbs'⟩

/-- As long as the rule is, its item gets to the marker with the number of the state. -/
theorem exists_visited_leftChain (linked : g.Linked) (le : k ≤ n) (small : k < stateLimit) :
    ∃ K, Visited g k K ∧ ⟨⟨1⟩, k⟩ ∈ (closure g (.compute g) K).keys := by
  obtain ⟨c, after, climbs⟩ := exists_climbs rules linked le small
  obtain ⟨i, pending, popped, split⟩ := WorkList.exists_pop climbs.more
  obtain ⟨-, waits, K, entry, here, -⟩ := climbs
  obtain ⟨rfl, -⟩ := List.cons.inj (waits.symm.trans split)
  refine ⟨K, ⟨k, c, pending, after, popped, entry⟩, ?_⟩
  change (closure g (.compute g) K).lookaheadSet.core _
  rw [lookaheadSet_closure linked]
  exact here

end leftChain
end Construction

/-- `S := S a ... a` with more symbols than a marker can be behind has no automaton. -/
theorem construct_markers_leftChain : ∃ g K, Grammar.define (leftChain 65535) = .ok g ∧
    Construction.Visited g 0 K ∧
    (∀ a ∈ (closure g (.compute g) K).keys, ∀ X, a.nextSymbol g = some X → a.marker = 0) ∧
    Automaton.construct g (.compute g) = .error .tooManyStates := by
  obtain ⟨g, defined, rules⟩ := leftChain_defined 65535
  have returned : g.Returned := .define defined
  obtain ⟨K, visited, item⟩ := Construction.exists_visited_leftChain rules returned.linked
    (Nat.zero_le _) (by decide)
  obtain ⟨markers, fails⟩ := construct_markers returned visited
  refine ⟨g, K, defined, visited, fun a member X next => ?_, ?_⟩
  · exact Nat.le_zero.1 (markers a member X next).1
  · have inRules : leftChainRule 65535 ∈ g.rules.values := by simp [OrderedMap.values, rules]
    exact fails (acceptFits_of_eq (g.acceptRule_eq rules)) _ inRules (by simp) ⟨0, item⟩

/-- `S := a` and `U := a ... a`, where nothing mentions `U`. -/
def strayChain (n : Nat) : List Declaration :=
  [.terminal "a" none, .nonterminal "S", .nonterminal "U", .rule ⟨1⟩ [.terminal ⟨3⟩] none,
    .rule ⟨2⟩ (List.replicate n (.terminal ⟨3⟩)) none]

def strayChainFirst : Rule := ⟨⟨1⟩, ⟨1⟩, #[.terminal ⟨3⟩], none, none⟩

def strayChainRule (n : Nat) : Rule :=
  ⟨⟨2⟩, ⟨2⟩, (List.replicate n (.terminal ⟨3⟩)).toArray, none, none⟩

theorem size_strayChainRule (n : Nat) : (strayChainRule n).right.size = n := by
  simp [strayChainRule]

theorem strayChain_defined (n : Nat) : ∃ g, Grammar.define (strayChain n) = .ok g ∧
    g.rules.toList = [(.accept, Builder.acceptingRule ⟨1⟩), (⟨1⟩, strayChainFirst),
      (⟨2⟩, strayChainRule n)] :=
  exists_define_rule
    [.terminal "a" none, .nonterminal "S", .nonterminal "U", .rule ⟨1⟩ [.terminal ⟨3⟩] none]
    [(⟨1⟩, strayChainFirst)] [.terminal ⟨3⟩]
    (by decide +kernel) (by decide) (by simp +contextual [List.mem_replicate]) (by decide)
    (by decide)

def strayItems : Finset Item := {⟨.accept, 0⟩, ⟨.accept, 1⟩, ⟨⟨1⟩, 0⟩, ⟨⟨1⟩, 1⟩}

section strayChain

variable (rules : g.rules.toList = [(.accept, Builder.acceptingRule ⟨1⟩), (⟨1⟩, strayChainFirst),
  (⟨2⟩, strayChainRule n)])

include rules

/-- Only the first items have a symbol behind the marker. -/
theorem next_strayItems {X : Symbol} (member : a ∈ strayItems) (next : a.nextSymbol g = some X) :
    a = .initial ∧ X = .nonterminal ⟨1⟩ ∨ a = ⟨⟨1⟩, 0⟩ ∧ X = .terminal ⟨3⟩ := by
  have accepting : g.rule? .accept = some (Builder.acceptingRule ⟨1⟩) := g.acceptRule_eq rules
  have first : g.rule? ⟨1⟩ = some strayChainFirst := OrderedMap.mem_toList_iff.1 (by simp [rules])
  simp only [strayItems, Finset.mem_insert, Finset.mem_singleton] at member
  rcases member with rfl | rfl | rfl | rfl
  · rw [Item.nextSymbol, accepting] at next
    exact .inl ⟨rfl, (Option.some.inj next).symm⟩
  · rw [Item.nextSymbol, accepting] at next
    cases next
  · rw [Item.nextSymbol, first] at next
    exact .inr ⟨rfl, (Option.some.inj next).symm⟩
  · rw [Item.nextSymbol, first] at next
    cases next

theorem closeCore_strayItems {M : LookaheadSet} (only : ∀ a, M.core a → a ∈ strayItems)
    (h : CloseCore g M a) : a ∈ strayItems := by
  induction h with
  | kernel inKernel => exact only _ inKernel
  | @expand i rule _ inRules next ih =>
    have left : rule.left = ⟨1⟩ := by
      rcases next_strayItems rules ih next with ⟨-, same⟩ | ⟨-, other⟩
      · exact Symbol.nonterminal.inj same
      · cases other
    have values : rule = Builder.acceptingRule ⟨1⟩ ∨ rule = strayChainFirst ∨
        rule = strayChainRule n := by
      simpa [OrderedMap.values, rules] using inRules
    rcases values with rfl | rfl | rfl
    · cases left
    · decide
    · cases left

/-- No kernel has an item of the rule for `U`. -/
theorem kernel_subset_strayItems {M : Set Item} (h : g.Kernel M) : M ⊆ strayItems := by
  induction h with
  | initial =>
    rintro a rfl
    decide
  | next _ _ ih =>
    rintro - ⟨a, core, next, rfl⟩
    rcases next_strayItems rules (closeCore_strayItems rules (fun b => @ih b) core) next with
      ⟨rfl, -⟩ | ⟨rfl, -⟩
    · decide
    · decide

theorem exists_construct_strayChain (linked : g.Linked) :
    ∃ automaton, Automaton.construct g (.compute g) = .ok automaton := by
  have accept : g.acceptRule.isSome := Option.isSome_of_eq_some (g.acceptRule_eq rules)
  cases built : Automaton.construct g (.compute g) with
  | ok automaton => exact ⟨automaton, rfl⟩
  | error e =>
    have many := Construction.lt_encard_of_loop linked accept
      (acceptFits_of_eq (g.acceptRule_eq rules))
      (map_eq_error ((Automaton.construct_eq accept).symm.trans built))
    have few : {M | g.Kernel M}.encard ≤ 16 :=
      calc {M | g.Kernel M}.encard ≤ (𝒫 (strayItems : Set Item)).encard :=
            Set.encard_le_encard fun M => kernel_subset_strayItems rules
        _ = ((𝒫 (strayItems : Set Item)).ncard : ℕ∞) :=
            (strayItems.finite_toSet.powerset.cast_ncard_eq).symm
        _ = 16 := by
          rw [Set.ncard_powerset _ strayItems.finite_toSet, Set.ncard_coe_finset]
          rfl
    exact absurd (many.trans_le few) (by decide)

end strayChain

/-- A marker behind 65535 symbols is moved in the last state that has a number, where it runs over;
and a longer rule that no state reaches does not make the construction fail. -/
theorem markers_exceed : (∃ g K a X, Grammar.define (leftChain 65535) = .ok g ∧
      Construction.Visited g 65535 K ∧ a ∈ (closure g (.compute g) K).keys ∧
      a.nextSymbol g = some X ∧ a.marker = 65535 ∧ a.advance.marker = 0) ∧
    ∃ g rule automaton, Grammar.define (strayChain 70000) = .ok g ∧ rule ∈ g.rules.values ∧
      rule.right.size = 70000 ∧ Automaton.construct g (.compute g) = .ok automaton := by
  constructor
  · obtain ⟨g, defined, rules⟩ := leftChain_defined 65535
    have linked : g.Linked := (Grammar.Returned.define defined).linked
    obtain ⟨K, visited, item⟩ := Construction.exists_visited_leftChain rules linked
      (Nat.le_refl 65535) (by decide)
    have next := Construction.next_leftChain (k := 65535) rules
    rw [List.getElem?_eq_getElem (by simp)] at next
    exact ⟨g, K, _, _, defined, visited, item, next, rfl, rfl⟩
  · obtain ⟨g, defined, rules⟩ := strayChain_defined 70000
    obtain ⟨automaton, built⟩ :=
      exists_construct_strayChain rules (Grammar.Returned.define defined).linked
    exact ⟨g, strayChainRule 70000, automaton, defined, by simp [OrderedMap.values, rules],
      size_strayChainRule 70000, built⟩

end Lalr
