import Lalr.Proofs.First.Nullable
import Lalr.Proofs.Room

/-! FIRST sets hold exactly the terminals that can begin a derived form. The loop passes sets
on along the inclusions that rules ask for until every inclusion holds. -/
namespace Lalr.FirstSets

open Grammar

variable {g : Grammar} {nullable : List NonterminalId} {α : List Symbol} {n m : NonterminalId}
  {t : TerminalId}

def Exact (g : Grammar) (nullable : List NonterminalId) : Prop :=
  ∀ n, n ∈ nullable ↔ g.Nullable [.nonterminal n]

theorem frontier_terminal (exact : Exact g nullable) : (frontier nullable α).2 = some t ↔
    ∃ β γ, α = β ++ .terminal t :: γ ∧ g.Nullable β := by
  induction α with
  | nil => simp [frontier]
  | cons X α ih =>
    cases X with
    | terminal u =>
      simp only [frontier, Option.some.injEq]
      constructor
      · rintro rfl
        exact ⟨[], α, rfl, nullable_nil⟩
      · rintro ⟨β, γ, split, empty⟩
        cases β with
        | nil => simpa using (List.cons_eq_cons.1 split).1
        | cons Y β =>
          obtain ⟨rfl, -⟩ := List.cons_eq_cons.1 split
          exact absurd (nullable_cons_iff.1 empty).1 not_nullable_terminal
    | nonterminal m =>
      by_cases known : m ∈ nullable
      · simp only [frontier, List.contains_eq_mem, known, decide_true, if_true, ih]
        constructor
        · rintro ⟨β, γ, rfl, empty⟩
          exact ⟨.nonterminal m :: β, γ, rfl, nullable_cons_iff.2 ⟨(exact m).1 known, empty⟩⟩
        · rintro ⟨β, γ, split, empty⟩
          cases β with
          | nil => simp at split
          | cons Y β =>
            obtain ⟨rfl, rfl⟩ := List.cons_eq_cons.1 split
            exact ⟨β, γ, rfl, (nullable_cons_iff.1 empty).2⟩
      · simp only [frontier, List.contains_eq_mem, known, decide_false, Bool.false_eq_true,
          if_false, reduceCtorEq, false_iff]
        rintro ⟨β, γ, split, empty⟩
        cases β with
        | nil => simp at split
        | cons Y β =>
          obtain ⟨rfl, -⟩ := List.cons_eq_cons.1 split
          exact known ((exact m).2 (nullable_cons_iff.1 empty).1)

theorem frontier_nonterminal (exact : Exact g nullable) : n ∈ (frontier nullable α).1 ↔
    ∃ β γ, α = β ++ .nonterminal n :: γ ∧ g.Nullable β := by
  induction α with
  | nil => simp [frontier]
  | cons X α ih =>
    cases X with
    | terminal u =>
      simp only [frontier, List.not_mem_nil, false_iff]
      rintro ⟨β, γ, split, empty⟩
      cases β with
      | nil => simp at split
      | cons Y β =>
        obtain ⟨rfl, -⟩ := List.cons_eq_cons.1 split
        exact absurd (nullable_cons_iff.1 empty).1 not_nullable_terminal
    | nonterminal m =>
      have here : n ∈ (frontier nullable (.nonterminal m :: α)).1 ↔
          n = m ∨ m ∈ nullable ∧ n ∈ (frontier nullable α).1 := by
        by_cases known : m ∈ nullable <;> simp [frontier, known]
      rw [here, ih]
      constructor
      · rintro (rfl | ⟨known, β, γ, rfl, empty⟩)
        · exact ⟨[], α, rfl, nullable_nil⟩
        · exact ⟨.nonterminal m :: β, γ, rfl, nullable_cons_iff.2 ⟨(exact m).1 known, empty⟩⟩
      · rintro ⟨β, γ, split, empty⟩
        cases β with
        | nil => exact .inl (by simpa using (List.cons_eq_cons.1 split).1.symm)
        | cons Y β =>
          obtain ⟨rfl, rfl⟩ := List.cons_eq_cons.1 split
          have := nullable_cons_iff.1 empty
          exact .inr ⟨(exact m).2 this.1, β, γ, rfl, this.2⟩

theorem mem_supersets : m ∈ supersets g nullable n ↔ ∃ rule ∈ g.rules.values,
    rule.left ≠ n ∧ n ∈ (frontier nullable rule.right.toList).1 ∧ rule.left = m := by
  simp [supersets, List.mem_eraseDups, and_assoc]

/-- Inclusions preserve what the sets stand for. -/
theorem first_of_mem_supersets (exact : Exact g nullable) (member : m ∈ supersets g nullable n)
    (h : g.First [.nonterminal n] t) : g.First [.nonterminal m] t := by
  obtain ⟨rule, inRules, -, front, rfl⟩ := mem_supersets.1 member
  obtain ⟨β, γ, split, empty⟩ := (frontier_nonterminal exact).1 front
  refine first_of_rule inRules (split ▸ First.skip empty ?_)
  exact h.append γ

namespace Propagation

variable {p : Propagation} {subset : TerminalSet}

def set (p : Propagation) (n : NonterminalId) : TerminalSet := (p.sets.get? n).getD ∅

theorem set_absorb : (absorb subset p n).set m = if m = n then p.set n ∪ subset else p.set m := by
  unfold absorb
  dsimp only
  split
  · next same =>
    split
    · next h => rw [h]; exact same.symm
    · rfl
  · rw [set, OrderedMap.get?_insert]
    split <;> rfl

theorem keys_absorb (subset : TerminalSet) (member : n ∈ p.sets.keys) : (absorb subset p n).sets.keys = p.sets.keys := by
  unfold absorb
  dsimp only
  split
  · rfl
  · simp only [OrderedMap.keys_insert, if_pos member]

theorem mem_pending_absorb : m ∈ (absorb subset p n).pending.toList ↔
    m ∈ p.pending.toList ∨ m = n ∧ p.set n ∪ subset ≠ p.set n := by
  unfold absorb set
  dsimp only
  split
  · next same => simp [same]
  · next grows => rw [WorkList.mem_push]; grind

theorem room_absorb (member : n ∈ p.sets.keys) :
    (absorb subset p n).pending.toList.length + roomAt (absorb subset p n).sets p.sets.keys ≤
      p.pending.toList.length + roomAt p.sets p.sets.keys := by
  unfold absorb
  dsimp only
  split
  · exact Nat.le_refl _
  · next grows =>
    obtain ⟨old, entry⟩ := OrderedMap.mem_keys_iff.1 member
    rw [entry, Option.getD_some] at grows ⊢
    have pushed := WorkList.length_push_le p.pending n
    have less : roomAt (p.sets.insert n (old ∪ subset)) p.sets.keys < roomAt p.sets p.sets.keys :=
      roomAt_insert_lt member (by rw [entry]; exact TerminalSet.room_union_lt grows)
    dsimp only
    omega

/-- Let several sets contain `subset`. -/
theorem absorb_all (subset : TerminalSet) {targets : List NonterminalId} (known : ∀ m ∈ targets, m ∈ p.sets.keys) :
    let q := targets.foldl (absorb subset) p
    (∀ m, q.set m = if m ∈ targets then p.set m ∪ subset else p.set m) ∧
      q.sets.keys = p.sets.keys ∧
      (∀ m, m ∈ p.pending.toList → m ∈ q.pending.toList) ∧
      (∀ m, m ∈ q.pending.toList ∨ q.set m = p.set m) ∧
      q.pending.toList.length + roomAt q.sets p.sets.keys ≤
        p.pending.toList.length + roomAt p.sets p.sets.keys := by
  induction targets generalizing p with
  | nil => simp
  | cons n rest ih =>
    obtain ⟨here, others⟩ := List.forall_mem_cons.1 known
    have keys := keys_absorb subset here
    obtain ⟨sets, keys', kept, grown, room⟩ := ih (p := absorb subset p n) (keys ▸ others)
    rw [keys] at room
    dsimp only [List.foldl_cons]
    refine ⟨fun m => ?_, keys'.trans keys,
      fun m member => kept m (mem_pending_absorb.2 (.inl member)), fun m => ?_,
      Nat.le_trans room (room_absorb here)⟩
    · rw [sets, set_absorb]
      ext t
      by_cases first : m = n
      · subst first
        by_cases later : m ∈ rest <;> simp [later]
      · simp [first]
    · rcases grown m with member | same
      · exact .inl member
      · by_cases first : m = n
        · by_cases grows : p.set n ∪ subset = p.set n
          · exact .inr (by rw [same, set_absorb, if_pos first, grows, first])
          · exact .inl (kept m (mem_pending_absorb.2 (.inr ⟨first, grows⟩)))
        · exact .inr (by rw [same, set_absorb, if_neg first])

/-- What holds between steps: sets hold first terminals only, terminals at the front of rules are
there, and a set that is not waiting has been passed on. -/
structure Valid (g : Grammar) (nullable : List NonterminalId) (p : Propagation) : Prop where
  keys : p.sets.keys = g.nonterminals.keys
  sound : ∀ n t, t ∈ p.set n → g.First [.nonterminal n] t
  terminals : ∀ rule ∈ g.rules.values, ∀ t,
    (frontier nullable rule.right.toList).2 = some t → t ∈ p.set rule.left
  settled : ∀ n, n ∈ p.pending.toList ∨
    ∀ m ∈ supersets g nullable n, ∀ t ∈ p.set n, t ∈ p.set m

/-- One step passes on the set that has waited longest. -/
theorem step_valid (linked : g.Linked) (exact : Exact g nullable) (h : p.Valid g nullable)
    (ongoing : more p = true) :
    let q := step (g.nonterminals.mapValues fun n _ => supersets g nullable n) p
    q.Valid g nullable ∧
      q.pending.toList.length + roomAt q.sets g.nonterminals.keys <
        p.pending.toList.length + roomAt p.sets g.nonterminals.keys := by
  obtain ⟨n, pending, popped, split⟩ := WorkList.exists_pop ongoing
  rw [step, popped]
  have targets : ((g.nonterminals.mapValues fun n _ => supersets g nullable n).get? n).getD [] =
      supersets g nullable n := by
    rw [OrderedMap.get?_mapValues]
    cases entry : g.nonterminals.get? n with
    | some _ => rfl
    | none =>
      -- A nonterminal that no right-hand side mentions has no supersets.
      refine (List.eq_nil_iff_forall_not_mem.2 fun m member => ?_).symm
      obtain ⟨rule, inRules, -, front, -⟩ := mem_supersets.1 member
      obtain ⟨β, γ, eq, -⟩ := (frontier_nonterminal exact).1 front
      have declared := linked.right rule inRules n (by simp [eq])
      exact OrderedMap.get?_eq_none_iff.1 entry declared
  have known (m : NonterminalId) (member : m ∈ supersets g nullable n) : m ∈ p.sets.keys := by
    obtain ⟨rule, inRules, -, -, rfl⟩ := mem_supersets.1 member
    exact h.keys ▸ linked.left rule inRules
  have self : n ∉ supersets g nullable n := by
    intro member
    obtain ⟨rule, -, other, -, same⟩ := mem_supersets.1 member
    exact other same
  dsimp only
  rw [targets]
  obtain ⟨sets, keys, kept, grown, room⟩ :=
    absorb_all (p := { p with pending }) ((p.sets.get? n).getD ∅) known
  generalize List.foldl _ _ _ = q at *
  have grows (m : NonterminalId) (t : TerminalId) (member : t ∈ p.set m) : t ∈ q.set m := by
    rw [sets]
    split
    · exact TerminalSet.mem_union.2 (.inl member)
    · exact member
  refine ⟨⟨keys.trans h.keys, fun m t member => ?_, fun rule inRules t front =>
    grows _ _ (h.terminals rule inRules t front), fun m => ?_⟩, ?_⟩
  · rw [sets] at member
    split at member
    · next inSupersets =>
      rcases TerminalSet.mem_union.1 member with member | member
      · exact h.sound m t member
      · exact first_of_mem_supersets exact inSupersets (h.sound n t member)
    · exact h.sound m t member
  · by_cases popped : m = n
    · subst popped
      refine .inr fun k inSupersets t member => ?_
      rw [sets, if_neg self] at member
      rw [sets, if_pos inSupersets]
      exact TerminalSet.mem_union.2 (.inr member)
    · rcases grown m with member | same
      · exact .inl member
      · rcases h.settled m with member | settled
        · rw [split, List.mem_cons] at member
          exact .inl (kept m (member.resolve_left popped))
        · refine .inr fun k inSupersets t member => grows k t (settled k inSupersets t ?_)
          rwa [same] at member
  · rw [h.keys] at room
    dsimp only at room
    rw [split, List.length_cons]
    omega

theorem initial_sets (nullable : List NonterminalId) (rules : List Rule)
    {sets : OrderedMap NonterminalId TerminalSet}
    (known : ∀ rule ∈ rules, rule.left ∈ sets.keys) :
    let last := rules.foldl (fun sets rule =>
      match (frontier nullable rule.right.toList).2 with
      | some t => sets.insert rule.left (((sets.get? rule.left).getD ∅).insert t)
      | none => sets) sets
    last.keys = sets.keys ∧ ∀ n t, t ∈ (last.get? n).getD ∅ ↔ t ∈ (sets.get? n).getD ∅ ∨
      ∃ rule ∈ rules, rule.left = n ∧ (frontier nullable rule.right.toList).2 = some t := by
  induction rules generalizing sets with
  | nil => simp
  | cons rule rest ih =>
    obtain ⟨here, others⟩ := List.forall_mem_cons.1 known
    dsimp only [List.foldl_cons]
    cases front : (frontier nullable rule.right.toList).2 with
    | none =>
      obtain ⟨keys, mem⟩ := ih others
      refine ⟨keys, fun n t => ?_⟩
      rw [mem]
      simp [front]
    | some u =>
      have keys₁ : (sets.insert rule.left (((sets.get? rule.left).getD ∅).insert u)).keys =
          sets.keys := by rw [OrderedMap.keys_insert, if_pos here]
      obtain ⟨keys, mem⟩ := ih (keys₁ ▸ others)
      refine ⟨keys.trans keys₁, fun n t => ?_⟩
      rw [mem, OrderedMap.get?_insert]
      by_cases same : n = rule.left
      · subst same
        simp [front]
        grind
      · simp [same, Ne.symm same]

theorem initial_valid (linked : g.Linked) (exact : Exact g nullable) :
    (initial g nullable).Valid g nullable := by
  have blank (n : NonterminalId) :
      ((g.nonterminals.mapValues fun _ _ => (∅ : TerminalSet)).get? n).getD ∅ = ∅ := by
    rw [OrderedMap.get?_mapValues]
    cases g.nonterminals.get? n <;> rfl
  have declared (rule : Rule) (member : rule ∈ g.rules.values) :
      rule.left ∈ (g.nonterminals.mapValues fun _ _ => (∅ : TerminalSet)).keys := by
    simpa using linked.left rule member
  obtain ⟨keys, mem⟩ := initial_sets nullable g.rules.values declared
  have mem (n : NonterminalId) (t : TerminalId) : t ∈ (initial g nullable).set n ↔
      ∃ rule ∈ g.rules.values, rule.left = n ∧
        (frontier nullable rule.right.toList).2 = some t := by
    apply (mem n t).trans
    rw [blank]
    simp
  constructor
  case keys => exact keys.trans (OrderedMap.keys_mapValues ..)
  case sound =>
    intro n t member
    obtain ⟨rule, inRules, rfl, front⟩ := (mem n t).1 member
    obtain ⟨β, γ, split, empty⟩ := (frontier_terminal exact).1 front
    exact first_of_rule inRules (split ▸ First.skip empty (first_terminal.2 rfl))
  case terminals => exact fun rule member t front => (mem _ t).2 ⟨rule, member, rfl, front⟩
  case settled =>
    intro n
    by_cases empty : ∀ t, t ∉ (initial g nullable).set n
    · exact .inr fun m _ t member => absurd member (empty t)
    · refine .inl (WorkList.mem_ofList.2 ?_)
      cases entry : (initial g nullable).sets.get? n with
      | none =>
        refine absurd (fun t => ?_) empty
        rw [set, entry]
        exact TerminalSet.not_mem_empty t
      | some s =>
        refine List.mem_map.2 ⟨(n, s), List.mem_filter.2 ⟨OrderedMap.mem_toList_iff.2 entry, ?_⟩,
          rfl⟩
        rw [set, entry, Option.getD_some, ← TerminalSet.isEmpty_iff] at empty
        simpa using empty

/-- The steps allowed are enough for every set to be passed on. -/
theorem propagation_done (linked : g.Linked) (exact : Exact g nullable) :
    let last := iterate more
      (step (g.nonterminals.mapValues fun n _ => supersets g nullable n))
      (g.nonterminals.size * (UInt16.size + 1)) (initial g nullable)
    last.Valid g nullable ∧ more last = false := by
  have start := initial_valid linked exact
  refine iterate_done (P := Valid g nullable)
    (fun p : Propagation => p.pending.toList.length + roomAt p.sets g.nonterminals.keys)
    (fun p h ongoing => step_valid linked exact h ongoing) start ?_
  have waiting : (initial g nullable).pending.toList.length ≤ g.nonterminals.keys.length := by
    apply Nat.le_trans (WorkList.length_ofList_le _)
    rw [← start.keys, List.length_map, OrderedMap.keys, List.length_map]
    exact List.length_filter_le ..
  have room : roomAt (initial g nullable).sets g.nonterminals.keys ≤ _ :=
    roomAt_le_of_present fun n member => start.keys ▸ member
  have size : g.nonterminals.size = g.nonterminals.keys.length := by
    simp [OrderedMap.size, OrderedMap.keys]
  rw [size, Nat.mul_add, Nat.mul_one]
  omega

end Propagation

/-- The computed FIRST set of a nonterminal holds the terminals that can begin what it
derives. -/
theorem mem_first (linked : g.Linked) :
    t ∈ (compute g).first n ↔ g.First [.nonterminal n] t := by
  have exact : Exact g (nullableSet g) := fun n => Nullability.mem_nullableSet linked
  obtain ⟨valid, done⟩ := Propagation.propagation_done linked exact
  rw [first, compute]
  dsimp only
  generalize iterate _ _ _ _ = last at *
  refine ⟨valid.sound n t, First.induction (P := fun n t => t ∈ last.set n) ?_ ?_⟩
  · intro rule member β γ t split empty
    exact valid.terminals rule member t ((frontier_terminal exact).2 ⟨β, γ, split, empty⟩)
  · intro rule member β γ m t split empty inSet
    by_cases self : rule.left = m
    · exact self ▸ inSet
    · have idle : last.pending.toList = [] :=
        WorkList.isEmpty_iff.1 (by simpa [Propagation.more] using done)
      rcases valid.settled m with waiting | settled
      · simp [idle] at waiting
      · exact settled _ (mem_supersets.2 ⟨rule, member, self,
          (frontier_nonterminal exact).2 ⟨β, γ, split, empty⟩, rfl⟩) t inSet

theorem isNullable_iff (linked : g.Linked) :
    (compute g).isNullable n = true ↔ g.Nullable [.nonterminal n] := by
  rw [isNullable, List.contains_iff_mem]
  exact Nullability.mem_nullableSet linked

/-- FIRST of a sequence followed by lookaheads. -/
theorem mem_ofSequence (linked : g.Linked) {lookaheads : TerminalSet} :
    t ∈ (compute g).ofSequence lookaheads α ↔
      g.First α t ∨ g.Nullable α ∧ t ∈ lookaheads := by
  induction α with
  | nil => simp [ofSequence, nullable_nil]
  | cons X α ih =>
    cases X with
    | terminal u =>
      have : ¬ g.Nullable (.terminal u :: α) := fun h =>
        not_nullable_terminal (nullable_cons_iff.1 h).1
      simp [ofSequence, this]
    | nonterminal m =>
      rw [nullable_cons_iff (α := α), first_cons_iff, ← isNullable_iff linked, ← mem_first linked, ofSequence]
      by_cases empty : (compute g).isNullable m = true
      · simp [empty, ih, or_assoc]
      · simp [empty]

end Lalr.FirstSets
