import Lalr.Automaton.Item
import Mathlib.Data.List.Induction
import Lalr.Proofs.Grammar.Derivation
import Lalr.Proofs.Grammar.WellFormed

/-! Canonical LR(1) item sets: closure and goto on sets of items with lookaheads, and the set
that a string of symbols leads to. They are stated by derivations alone, without FIRST sets,
state numbers or an order of steps. -/
namespace Lalr

/-- The item with the marker behind one more symbol, however far that is. -/
def Item.moved (i : Item) : Item := { i with marker := i.marker + 1 }

def Item.behind (g : Grammar) (i : Item) : List Symbol :=
  ((g.rule? i.rule).map fun rule => rule.right.toList.drop (i.marker + 1)).getD []

/-- Items and their lookaheads. An item may be there without any lookahead. -/
@[ext] structure LookaheadSet where
  core : Item → Prop
  lookahead : Item → TerminalId → Prop

namespace LookaheadSet

/-- With an item `[A := α . B β]` the closure has `[B := . γ]` for every rule of `B`. -/
inductive CloseCore (g : Grammar) (K : LookaheadSet) : Item → Prop where
  | kernel : K.core i → CloseCore g K i
  | expand {rule : Rule} : CloseCore g K i → rule ∈ g.rules.values →
      i.nextSymbol g = some (.nonterminal rule.left) → CloseCore g K ⟨rule.id, 0⟩

/-- The lookaheads of `[B := . γ]` are FIRST of `β` and, if `β` is nullable, the lookaheads of
`[A := α . B β]`. -/
inductive CloseLookahead (g : Grammar) (K : LookaheadSet) : Item → TerminalId → Prop where
  | kernel : K.lookahead i t → CloseLookahead g K i t
  | first {rule : Rule} : CloseCore g K i → rule ∈ g.rules.values →
      i.nextSymbol g = some (.nonterminal rule.left) → g.First (i.behind g) t →
      CloseLookahead g K ⟨rule.id, 0⟩ t
  | follow {rule : Rule} : CloseLookahead g K i t → rule ∈ g.rules.values →
      i.nextSymbol g = some (.nonterminal rule.left) → g.Nullable (i.behind g) →
      CloseLookahead g K ⟨rule.id, 0⟩ t

def close (g : Grammar) (K : LookaheadSet) : LookaheadSet := ⟨CloseCore g K, CloseLookahead g K⟩

/-- The items with `X` behind the marker, moved past it, with their lookaheads. -/
def goto (g : Grammar) (I : LookaheadSet) (X : Symbol) : LookaheadSet where
  core j := ∃ i, I.core i ∧ i.nextSymbol g = some X ∧ j = i.moved
  lookahead j t := ∃ i, I.lookahead i t ∧ i.nextSymbol g = some X ∧ j = i.moved

def initial : LookaheadSet where
  core i := i = .initial
  lookahead i t := i = .initial ∧ t = .endOfInput

def Supported (K : LookaheadSet) : Prop := ∀ i t, K.lookahead i t → K.core i

variable {g : Grammar} {K M : LookaheadSet} {i : Item} {t : TerminalId} {X : Symbol}

theorem Supported.close (h : K.Supported) : (K.close g).Supported := by
  intro i t member
  induction member with
  | kernel inK => exact .kernel (h _ _ inK)
  | first core rule next _ => exact .expand core rule next
  | follow _ rule next _ ih => exact .expand ih rule next

theorem Supported.goto (h : K.Supported) (X : Symbol) : (K.goto g X).Supported := by
  rintro j t ⟨i, member, next, rfl⟩
  exact ⟨i, h i t member, next, rfl⟩

theorem supported_initial : initial.Supported := fun _ _ h => h.1

theorem CloseCore.mono (cores : ∀ i, K.core i → M.core i) (h : CloseCore g K i) :
    CloseCore g M i := by
  induction h with
  | kernel inK => exact .kernel (cores _ inK)
  | expand _ rule next ih => exact .expand ih rule next

theorem CloseCore.exists_kernel (h : CloseCore g K i) : ∃ j, K.core j := by
  induction h with
  | kernel inK => exact ⟨_, inK⟩
  | expand _ _ _ ih => exact ih

theorem CloseLookahead.mono (cores : ∀ i, K.core i → M.core i)
    (lookaheads : ∀ i t, K.lookahead i t → M.lookahead i t) (h : CloseLookahead g K i t) :
    CloseLookahead g M i t := by
  induction h with
  | kernel inK => exact .kernel (lookaheads _ _ inK)
  | first core rule next first => exact .first (core.mono cores) rule next first
  | follow _ rule next empty ih => exact .follow ih rule next empty

/-- The closure of a merged set has no lookahead that the closure of no part has. -/
theorem CloseLookahead.part {ι : Type} (parts : ι → LookaheadSet) {P : ι → Prop} (part : ∃ a, P a)
    (cores : ∀ a, P a → ∀ i, K.core i → (parts a).core i)
    (lookaheads : ∀ i t, K.lookahead i t → ∃ a, P a ∧ (parts a).lookahead i t)
    (h : CloseLookahead g K i t) : ∃ a, P a ∧ CloseLookahead g (parts a) i t := by
  induction h with
  | kernel inK =>
    obtain ⟨a, there, inPart⟩ := lookaheads _ _ inK
    exact ⟨a, there, .kernel inPart⟩
  | first core rule next first =>
    obtain ⟨a, there⟩ := part
    exact ⟨a, there, .first (core.mono (cores a there)) rule next first⟩
  | follow _ rule next empty ih =>
    obtain ⟨a, there, inPart⟩ := ih
    exact ⟨a, there, .follow inPart rule next empty⟩

end LookaheadSet

namespace Grammar

open LookaheadSet

variable {g : Grammar} {γ : List Symbol} {i : Item} {t : TerminalId} {X : Symbol} {rule : Rule}

/-- The canonical item set of a string of symbols. -/
def canonical (g : Grammar) (γ : List Symbol) : LookaheadSet :=
  γ.foldl (fun I X => (I.goto g X).close g) (LookaheadSet.initial.close g)

/-- The items of the canonical set that were moved past the last symbol. -/
def canonicalKernel (g : Grammar) (γ : List Symbol) : LookaheadSet :=
  γ.foldl (fun K X => (K.close g).goto g X) LookaheadSet.initial

theorem canonical_eq_close (g : Grammar) (γ : List Symbol) :
    g.canonical γ = (g.canonicalKernel γ).close g := by
  unfold canonical canonicalKernel
  generalize LookaheadSet.initial = K
  induction γ generalizing K with
  | nil => rfl
  | cons X γ ih => exact ih _

theorem canonicalKernel_append (γ : List Symbol) (X : Symbol) :
    g.canonicalKernel (γ ++ [X]) = (g.canonical γ).goto g X := by
  rw [canonical_eq_close, canonicalKernel, List.foldl_append]
  rfl

theorem supported_canonicalKernel (g : Grammar) (γ : List Symbol) :
    (g.canonicalKernel γ).Supported := by
  unfold canonicalKernel
  have start := supported_initial
  revert start
  generalize LookaheadSet.initial = K
  induction γ generalizing K with
  | nil => exact id
  | cons X γ ih => exact fun h => ih _ (h.close.goto X)

theorem supported_canonical (g : Grammar) (γ : List Symbol) : (g.canonical γ).Supported :=
  canonical_eq_close g γ ▸ (supported_canonicalKernel g γ).close

/-- `K` has the items, though not all lookaheads, of the canonical kernel of `γ`. -/
def LeadsTo (g : Grammar) (γ : List Symbol) (K : LookaheadSet) : Prop :=
  ∀ i, K.core i ↔ (g.canonicalKernel γ).core i

theorem LeadsTo.close {K : LookaheadSet} (h : g.LeadsTo γ K) :
    (K.close g).core i ↔ (g.canonical γ).core i := by
  rw [canonical_eq_close]
  exact ⟨CloseCore.mono fun j => (h j).1, CloseCore.mono fun j => (h j).2⟩

theorem LeadsTo.goto {K : LookaheadSet} (h : g.LeadsTo γ K) (X : Symbol) :
    g.LeadsTo (γ ++ [X]) ((K.close g).goto g X) := by
  intro j
  rw [canonicalKernel_append]
  constructor
  · rintro ⟨i, core, next, rfl⟩
    exact ⟨i, h.close.1 core, next, rfl⟩
  · rintro ⟨i, core, next, rfl⟩
    exact ⟨i, h.close.2 core, next, rfl⟩

/-- `K` merges canonical kernels with the same items. -/
structure Merges (g : Grammar) (K : LookaheadSet) : Prop where
  inhabited : ∃ i, K.core i
  reached : ∃ γ, g.LeadsTo γ K
  justified : ∀ i t, K.lookahead i t →
    ∃ γ, g.LeadsTo γ K ∧ (g.canonicalKernel γ).lookahead i t

theorem Merges.initial : g.Merges .initial where
  inhabited := ⟨.initial, rfl⟩
  reached := ⟨[], fun _ => .rfl⟩
  justified _ _ member := ⟨[], fun _ => .rfl, member⟩

theorem Merges.close {K : LookaheadSet} (h : g.Merges K) (member : (K.close g).lookahead i t) :
    ∃ γ, g.LeadsTo γ K ∧ (g.canonical γ).lookahead i t := by
  obtain ⟨γ, leads, inPart⟩ := CloseLookahead.part g.canonicalKernel h.reached
    (fun γ leads i => (leads i).1) h.justified member
  exact ⟨γ, leads, canonical_eq_close g γ ▸ inPart⟩

/-- Merged sets lead to merged sets. -/
theorem Merges.goto {K : LookaheadSet} (h : g.Merges K)
    (inhabited : ∃ i, ((K.close g).goto g X).core i) : g.Merges ((K.close g).goto g X) := by
  constructor
  case inhabited => exact inhabited
  case reached =>
    obtain ⟨γ, leads⟩ := h.reached
    exact ⟨γ ++ [X], leads.goto X⟩
  case justified =>
    rintro j t ⟨i, member, next, rfl⟩
    obtain ⟨γ, leads, inPart⟩ := h.close member
    refine ⟨γ ++ [X], leads.goto X, ?_⟩
    rw [canonicalKernel_append]
    exact ⟨i, inPart, next, rfl⟩

theorem core_of_kernel (h : (g.canonicalKernel γ).core i) : (g.canonical γ).core i :=
  canonical_eq_close g γ ▸ CloseCore.kernel h

theorem lookahead_first (h : (g.canonical γ).core i) (member : rule ∈ g.rules.values)
    (next : i.nextSymbol g = some (.nonterminal rule.left)) (first : g.First (i.behind g) t) :
    (g.canonical γ).lookahead ⟨rule.id, 0⟩ t := by
  rw [canonical_eq_close] at h ⊢
  exact .first h member next first

theorem lookahead_follow (h : (g.canonical γ).lookahead i t) (member : rule ∈ g.rules.values)
    (next : i.nextSymbol g = some (.nonterminal rule.left)) (empty : g.Nullable (i.behind g)) :
    (g.canonical γ).lookahead ⟨rule.id, 0⟩ t := by
  rw [canonical_eq_close] at h ⊢
  exact .follow h member next empty

theorem core_moved (h : (g.canonical γ).core i) (next : i.nextSymbol g = some X) :
    (g.canonical (γ ++ [X])).core i.moved := by
  apply core_of_kernel
  rw [canonicalKernel_append]
  exact ⟨i, h, next, rfl⟩

/-- Items stay while a right-hand side is read. -/
theorem core_take {r : RuleId} (known : g.rule? r = some rule) (h : (g.canonical γ).core ⟨r, 0⟩)
    {k : Nat} (le : k ≤ rule.right.size) :
    (g.canonical (γ ++ rule.right.toList.take k)).core ⟨r, k⟩ := by
  induction k with
  | zero => simpa using h
  | succ k ih =>
    have next : (⟨r, k⟩ : Item).nextSymbol g = some rule.right[k] := by
      simp [Item.nextSymbol, known, Array.getElem?_eq_getElem le]
    have moved := core_moved (ih (Nat.le_of_succ_le le)) next
    simpa [List.take_add_one, Array.getElem?_eq_getElem le, Item.moved] using moved

theorem lookahead_moved (h : (g.canonical γ).lookahead i t) (next : i.nextSymbol g = some X) :
    (g.canonical (γ ++ [X])).lookahead i.moved t := by
  rw [canonical_eq_close, canonicalKernel_append]
  exact .kernel ⟨i, h, next, rfl⟩

theorem core_initial : (g.canonical []).core .initial := CloseCore.kernel rfl

theorem lookahead_initial : (g.canonical []).lookahead .initial .endOfInput :=
  CloseLookahead.kernel ⟨rfl, rfl⟩

/-- Where an item comes from: it is the first one, the closure of another, or it has been moved
past the last symbol. -/
theorem core_cases (h : (g.canonical γ).core i) :
    (γ = [] ∧ i = .initial) ∨
    (∃ j rule, (g.canonical γ).core j ∧ rule ∈ g.rules.values ∧
      j.nextSymbol g = some (.nonterminal rule.left) ∧ i = ⟨rule.id, 0⟩) ∨
    ∃ δ X j, γ = δ ++ [X] ∧ (g.canonical δ).core j ∧ j.nextSymbol g = some X ∧ i = j.moved := by
  have h' := h
  rw [canonical_eq_close] at h'
  cases h' with
  | kernel inKernel =>
    rcases List.eq_nil_or_concat γ with rfl | ⟨δ, X, rfl⟩
    · exact .inl ⟨rfl, inKernel⟩
    · rw [List.concat_eq_append, canonicalKernel_append] at inKernel
      obtain ⟨j, core, next, rfl⟩ := inKernel
      exact .inr (.inr ⟨δ, X, j, List.concat_eq_append .., core, next, rfl⟩)
  | expand core member next =>
    refine .inr (.inl ⟨_, _, ?_, member, next, rfl⟩)
    rw [canonical_eq_close]
    exact core

/-- The part of a right-hand side in front of the marker ends the string, and before it the
item was at the start. -/
theorem Linked.core_split (linked : g.Linked) (accept : g.acceptRule.isSome)
    (h : (g.canonical γ).core i) :
    ∃ δ rule, g.rule? i.rule = some rule ∧ i.marker ≤ rule.right.size ∧
      γ = δ ++ rule.right.toList.take i.marker ∧ (g.canonical δ).core ⟨i.rule, 0⟩ := by
  obtain ⟨k, marker⟩ : ∃ k, i.marker = k := ⟨_, rfl⟩
  induction k generalizing γ i with
  | zero =>
    have known : ∃ rule, g.rule? i.rule = some rule := by
      rcases core_cases h with ⟨-, rfl⟩ | ⟨j, rule, -, member, -, rfl⟩ | ⟨δ, X, j, -, -, -, rfl⟩
      · exact Option.isSome_iff_exists.1 accept
      · exact ⟨rule, linked.rule?_id member⟩
      · cases marker
    obtain ⟨rule, known⟩ := known
    refine ⟨γ, rule, known, by omega, by simp [marker], ?_⟩
    obtain ⟨r, m⟩ := i
    cases marker
    exact h
  | succ k ih =>
    rcases core_cases h with ⟨-, rfl⟩ | ⟨j, rule, -, -, -, rfl⟩ | ⟨δ, X, j, rfl, core, next, rfl⟩
    · cases marker
    · cases marker
    · obtain ⟨δ', rule, known, le, rfl, start⟩ := ih core (by simpa [Item.moved] using marker)
      rw [Item.nextSymbol, known, Option.bind_some] at next
      obtain ⟨lt, rfl⟩ := Array.getElem?_eq_some_iff.1 next
      refine ⟨δ', rule, known, lt, ?_, start⟩
      rw [Item.moved, List.take_add_one, List.getElem?_eq_getElem (by simpa using lt)]
      simp

theorem core_split (wf : g.WellFormed) (accept : g.start.isSome) (h : (g.canonical γ).core i) :
    ∃ δ rule, g.rule? i.rule = some rule ∧ i.marker ≤ rule.right.size ∧
      γ = δ ++ rule.right.toList.take i.marker ∧ (g.canonical δ).core ⟨i.rule, 0⟩ :=
  wf.linked.core_split (wf.acceptRule accept) h

/-- Derivations put terminals of rules into a form. -/
theorem Expands.declared {α β : List Symbol} (linked : g.Linked) (h : g.Expands α β)
    (known : ∀ t, .terminal t ∈ α → t ∈ g.terminals.keys) :
    ∀ t, .terminal t ∈ β → t ∈ g.terminals.keys := by
  induction h with
  | nil => exact known
  | keep X _ ih =>
    intro t member
    rcases List.mem_cons.1 member with rfl | member
    · exact known t (List.mem_cons_self ..)
    · exact ih (fun u inForm => known u (List.mem_cons_of_mem _ inForm)) t member
  | expand inRules _ _ right rest =>
    intro t member
    rcases List.mem_append.1 member with member | member
    · exact right (linked.terminal _ inRules) t member
    · exact rest (fun u inForm => known u (List.mem_cons_of_mem _ inForm)) t member

theorem First.declared {α : List Symbol} (linked : g.Linked) (h : g.First α t)
    (known : ∀ t, .terminal t ∈ α → t ∈ g.terminals.keys) : t ∈ g.terminals.keys := by
  obtain ⟨δ, derived⟩ := h
  exact (derives_iff_expands.1 derived).declared linked known t (List.mem_cons_self ..)

/-- The terminals behind a marker stand in a rule. -/
theorem Linked.behind_declared (linked : g.Linked) (i : Item)
    (member : .terminal t ∈ i.behind g) : t ∈ g.terminals.keys := by
  cases known : g.rule? i.rule with
  | none => simp [Item.behind, known] at member
  | some rule =>
    simp only [Item.behind, known, Option.map_some, Option.getD_some] at member
    exact linked.terminal rule (mem_rules known) t (List.mem_of_mem_drop member)

theorem CloseLookahead.declared {K : LookaheadSet} (linked : g.Linked)
    (known : ∀ i t, K.lookahead i t → t ∈ g.terminals.keys) (h : CloseLookahead g K i t) :
    t ∈ g.terminals.keys := by
  induction h with
  | kernel inKernel => exact known _ _ inKernel
  | first _ _ _ first => exact first.declared linked fun u member => linked.behind_declared _ member
  | follow _ _ _ _ ih => exact ih

/-- Lookaheads are the end of the input or stand in rules. -/
theorem Linked.canonicalKernel_lookahead (linked : g.Linked)
    (endOfInput : .endOfInput ∈ g.terminals.keys) (h : (g.canonicalKernel γ).lookahead i t) :
    t ∈ g.terminals.keys := by
  induction γ using List.reverseRecOn generalizing i t with
  | nil => exact h.2 ▸ endOfInput
  | append_singleton γ X ih =>
    rw [canonicalKernel_append, canonical_eq_close] at h
    obtain ⟨j, inSet, -, -⟩ := h
    exact CloseLookahead.declared linked (fun _ _ => ih) inSet

theorem Linked.canonical_lookahead (linked : g.Linked)
    (endOfInput : .endOfInput ∈ g.terminals.keys) (h : (g.canonical γ).lookahead i t) :
    t ∈ g.terminals.keys := by
  rw [canonical_eq_close] at h
  exact CloseLookahead.declared linked
    (fun _ _ => linked.canonicalKernel_lookahead endOfInput) h

/-- An item at the start of a rule other than the accepting one is there because of its
left-hand side. -/
theorem core_demanded (wf : g.WellFormed) (member : rule ∈ g.rules.values)
    (other : rule.id ≠ .accept) (h : (g.canonical γ).core ⟨rule.id, 0⟩) :
    ∃ j, (g.canonical γ).core j ∧ j.nextSymbol g = some (.nonterminal rule.left) := by
  rcases core_cases h with ⟨-, eq⟩ | ⟨j, rule', core, member', next, eq⟩ | ⟨δ, X, j, -, -, -, eq⟩
  · exact absurd (congrArg Item.rule eq) other
  · have ids : rule.id = rule'.id := congrArg Item.rule eq
    have same : rule = rule' := Option.some.inj <| by
      rw [← wf.rule?_id member, ← wf.rule?_id member', ids]
    exact ⟨j, core, same ▸ next⟩
  · cases congrArg Item.marker eq

theorem mem_right_of_next (next : i.nextSymbol g = some X) :
    ∃ rule ∈ g.rules.values, X ∈ rule.right.toList := by
  obtain ⟨rule, known, at_marker⟩ := Option.bind_eq_some_iff.1 next
  exact ⟨rule, mem_rules known, by simpa using Array.mem_of_getElem? at_marker⟩

/-- No item demands the accepting rule. -/
theorem next_ne_start (wf : g.WellFormed) : i.nextSymbol g ≠ some (.nonterminal .start) := by
  intro next
  obtain ⟨rule, member, inRight⟩ := mem_right_of_next next
  exact (wf.nonterminal rule member _ inRight).1 rfl

/-- No item has the end of the input behind its marker. -/
theorem next_ne_endOfInput (wf : g.WellFormed) :
    i.nextSymbol g ≠ some (.terminal .endOfInput) := by
  intro next
  obtain ⟨rule, member, inRight⟩ := mem_right_of_next next
  exact (wf.terminal rule member _ inRight).1 rfl

/-- The closure adds no item of the accepting rule. -/
theorem id_ne_accept (wf : g.WellFormed) (accept : g.start.isSome) (member : rule ∈ g.rules.values)
    (next : i.nextSymbol g = some (.nonterminal rule.left)) : rule.id ≠ .accept := by
  intro same
  obtain ⟨n, start⟩ := Option.isSome_iff_exists.1 accept
  have known := wf.rule?_id member
  rw [same, wf.accept n start, Option.some.injEq] at known
  subst known
  exact next_ne_start wf next

/-- The accepting rule starts with the input. -/
theorem eq_nil_of_core_initial (wf : g.WellFormed) (accept : g.start.isSome)
    (h : (g.canonical γ).core .initial) : γ = [] := by
  rcases core_cases h with ⟨empty, -⟩ | ⟨j, rule, -, member, next, eq⟩ | ⟨δ, X, j, -, -, -, eq⟩
  · exact empty
  · exact absurd (congrArg Item.rule eq).symm (id_ne_accept wf accept member next)
  · cases congrArg Item.marker eq

/-- The kernel can be read off the canonical set. -/
theorem core_kernel_iff (wf : g.WellFormed) (accept : g.start.isSome) :
    (g.canonicalKernel γ).core i ↔ (g.canonical γ).core i ∧ (i.marker ≠ 0 ∨ i = .initial) := by
  constructor
  · intro h
    refine ⟨core_of_kernel h, ?_⟩
    rcases List.eq_nil_or_concat γ with rfl | ⟨δ, X, rfl⟩
    · exact .inr h
    · rw [List.concat_eq_append, canonicalKernel_append] at h
      obtain ⟨j, -, -, rfl⟩ := h
      exact .inl (Nat.succ_ne_zero _)
  · rintro ⟨h, moved⟩
    rw [canonical_eq_close] at h
    cases h with
    | kernel inKernel => exact inKernel
    | expand _ member next =>
      rcases moved with moved | first
      · exact absurd rfl moved
      · exact absurd (congrArg Item.rule first) (id_ne_accept wf accept member next)

/-- The end of the input is the only lookahead of the accepting rule. -/
theorem lookahead_accept (wf : g.WellFormed) (accept : g.start.isSome)
    (h : (g.canonical γ).lookahead i t) (rule : i.rule = .accept) : t = .endOfInput := by
  induction γ using List.reverseRecOn generalizing i with
  | nil =>
    cases h with
    | kernel inKernel => exact inKernel.2
    | first _ member next _ => exact absurd rule (id_ne_accept wf accept member next)
    | follow _ member next _ => exact absurd rule (id_ne_accept wf accept member next)
  | append_singleton γ X ih =>
    rw [canonical_eq_close, canonicalKernel_append] at h
    cases h with
    | kernel inKernel =>
      obtain ⟨j, member, -, rfl⟩ := inKernel
      exact ih member rule
    | first _ member next _ => exact absurd rule (id_ne_accept wf accept member next)
    | follow _ member next _ => exact absurd rule (id_ne_accept wf accept member next)

end Grammar
end Lalr
