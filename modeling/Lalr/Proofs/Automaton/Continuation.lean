import Lalr.Proofs.Automaton.Canonical

/-! What canonical item sets say about the text behind the string that leads to them. The
string can be continued to a form of the start symbol, and a terminal that is awaited behind a
left-hand side was a lookahead when its rule was finished. The lookaheads here are those of the
string itself; merged states may have more. -/
namespace Lalr

def Item.rest (g : Grammar) (i : Item) : List Symbol :=
  ((g.rule? i.rule).map fun rule => rule.right.toList.drop i.marker).getD []

@[simp] theorem Item.rest_moved (g : Grammar) (i : Item) : i.moved.rest g = i.behind g := rfl

theorem Item.rest_of_next {g : Grammar} {i : Item} {X : Symbol} (next : i.nextSymbol g = some X) :
    i.rest g = X :: i.behind g := by
  obtain ⟨rule, known, marked⟩ := Option.bind_eq_some_iff.1 next
  obtain ⟨inside, rfl⟩ := Array.getElem?_eq_some_iff.1 marked
  have split := List.drop_eq_getElem_cons (l := rule.right.toList) (by simpa using inside)
  simpa [Item.rest, Item.behind, known] using split

theorem Item.rest_of_ended {g : Grammar} {i : Item} (ended : i.nextSymbol g = none) :
    i.rest g = [] := by
  cases known : g.rule? i.rule with
  | none => simp [Item.rest, known]
  | some rule => simpa [Item.rest, Item.nextSymbol, known] using ended

namespace Grammar

open LookaheadSet

variable {g : Grammar} {K : LookaheadSet} {γ δ : List Symbol} {i : Item} {t : TerminalId}
  {X : Symbol} {rule : Rule} {n : NonterminalId} {r : RuleId}

theorem WellFormed.rest_start (wf : g.WellFormed) (member : rule ∈ g.rules.values) :
    (⟨rule.id, 0⟩ : Item).rest g = rule.right.toList := by
  simp [Item.rest, wf.rule?_id member]

/-- What holds of the first item, and is kept when items are expanded and when they are moved
past a symbol, holds of all items of canonical sets. -/
theorem core_induction {P : List Symbol → Item → Prop} (initial : P [] .initial)
    (expand : ∀ γ j rule, P γ j → rule ∈ g.rules.values →
      j.nextSymbol g = some (.nonterminal rule.left) → P γ ⟨rule.id, 0⟩)
    (advance : ∀ γ j X, P γ j → j.nextSymbol g = some X → P (γ ++ [X]) j.moved)
    (h : (g.canonical γ).core i) : P γ i := by
  rw [canonical_eq_close] at h
  induction γ using List.reverseRecOn generalizing i with
  | nil =>
    induction h with
    | kernel inKernel => exact inKernel ▸ initial
    | expand _ member next ih => exact expand _ _ _ ih member next
  | append_singleton γ X before =>
    induction h with
    | kernel inKernel =>
      rw [canonicalKernel_append, canonical_eq_close] at inKernel
      obtain ⟨j, core, next, rfl⟩ := inKernel
      exact advance _ _ _ (before core) next
    | expand _ member next ih => exact expand _ _ _ ih member next

/-- A string that has items is the beginning of a form of the start symbol, and each item says
how the form goes on. -/
theorem derives_of_core (wf : g.WellFormed) (start : g.start = some n)
    (h : (g.canonical γ).core i) :
    ∃ back, g.Derives [.nonterminal n] (γ ++ i.rest g ++ back) := by
  refine core_induction (P := fun γ i => ∃ back, g.Derives [.nonterminal n] (γ ++ i.rest g ++ back))
    ?initial ?expand ?advance h
  case initial =>
    have rest : Item.initial.rest g = [.nonterminal n] := by
      simp [Item.rest, Item.initial, wf.accept n start, Builder.acceptingRule]
    refine ⟨[], ?_⟩
    simp only [rest, List.nil_append, List.append_nil]
    exact .refl
  case expand =>
    rintro γ j rule ⟨back, derived⟩ member next
    refine ⟨j.behind g ++ back, derived.tail ?_⟩
    have rewritten := Produces.rewrite γ (j.behind g ++ back) member
    simpa [Item.rest_of_next next, wf.rest_start member] using rewritten
  case advance =>
    rintro γ j X ⟨back, derived⟩ next
    exact ⟨back, by simpa [Item.rest_of_next next] using derived⟩

/-- Some item is gone on with by `t`, or it may end in front of `t`. -/
def Awaits (g : Grammar) (γ : List Symbol) (t : TerminalId) : Prop :=
  ∃ i, (g.canonical γ).core i ∧
    (g.First (i.rest g) t ∨ g.Nullable (i.rest g) ∧ (g.canonical γ).lookahead i t)

theorem awaits_of_next (h : (g.canonical γ).core i) (next : i.nextSymbol g = some (.terminal t)) :
    g.Awaits γ t :=
  ⟨i, h, .inl (by simp [Item.rest_of_next next])⟩

theorem awaits_of_ended (h : (g.canonical γ).lookahead i t) (ended : i.nextSymbol g = none) :
    g.Awaits γ t := by
  refine ⟨i, supported_canonical g γ i t h, .inr ⟨?_, h⟩⟩
  rw [Item.rest_of_ended ended]
  exact nullable_nil

/-- What an item goes on with, an item of the kernel goes on with. -/
theorem first_kernel (wf : g.WellFormed) (h : CloseCore g K i) (first : g.First (i.rest g) t) :
    ∃ k, K.core k ∧ g.First (k.rest g) t := by
  induction h with
  | kernel inKernel => exact ⟨_, inKernel, first⟩
  | expand _ member next ih =>
    rw [wf.rest_start member] at first
    apply ih
    rw [Item.rest_of_next next]
    exact (first_of_rule member first).append _

/-- What an item may end in front of, an item of the kernel goes on with or may end in front of. -/
theorem follow_kernel (wf : g.WellFormed) (supported : K.Supported) (h : CloseLookahead g K i t)
    (empty : g.Nullable (i.rest g)) : ∃ k, K.core k ∧
      (g.First (k.rest g) t ∨ g.Nullable (k.rest g) ∧ K.lookahead k t) := by
  induction h with
  | kernel inKernel => exact ⟨_, supported _ _ inKernel, .inr ⟨empty, inKernel⟩⟩
  | first core member next first =>
    rw [wf.rest_start member] at empty
    have further := first_cons_iff.2 (.inr ⟨nullable_of_rule member empty, first⟩)
    rw [← Item.rest_of_next next] at further
    obtain ⟨k, inKernel, first⟩ := first_kernel wf core further
    exact ⟨k, inKernel, .inl first⟩
  | follow _ member next behind ih =>
    rw [wf.rest_start member] at empty
    apply ih
    rw [Item.rest_of_next next]
    exact nullable_cons_iff.2 ⟨nullable_of_rule member empty, behind⟩

/-- What is awaited behind a nonterminal is a lookahead of its rules in front of it. -/
theorem lookahead_of_awaits (wf : g.WellFormed) (member : rule ∈ g.rules.values)
    (h : g.Awaits (γ ++ [.nonterminal rule.left]) t) :
    (g.canonical γ).lookahead ⟨rule.id, 0⟩ t := by
  obtain ⟨i, core, awaited⟩ := h
  have supported := supported_canonicalKernel g (γ ++ [.nonterminal rule.left])
  rw [canonical_eq_close] at core awaited
  -- It is enough to look at the items that have just been moved past the nonterminal.
  have kernel : ∃ k, (g.canonicalKernel (γ ++ [.nonterminal rule.left])).core k ∧
      (g.First (k.rest g) t ∨ g.Nullable (k.rest g) ∧
        (g.canonicalKernel (γ ++ [.nonterminal rule.left])).lookahead k t) := by
    rcases awaited with first | ⟨empty, lookahead⟩
    · obtain ⟨k, inKernel, first⟩ := first_kernel wf core first
      exact ⟨k, inKernel, .inl first⟩
    · exact follow_kernel wf supported lookahead empty
  rw [canonicalKernel_append] at kernel
  rcases kernel with ⟨_, ⟨j, core, next, rfl⟩, first | ⟨empty, j', lookahead, next', same⟩⟩
  · exact lookahead_first core member next first
  · rw [same] at empty
    exact lookahead_follow lookahead member next' empty

/-- Lookaheads stay while a right-hand side is read. -/
theorem lookahead_take (known : g.rule? r = some rule) (h : (g.canonical δ).lookahead ⟨r, 0⟩ t)
    {k : Nat} (le : k ≤ rule.right.size) :
    (g.canonical (δ ++ rule.right.toList.take k)).lookahead ⟨r, k⟩ t := by
  induction k with
  | zero => simpa using h
  | succ k ih =>
    have next : (⟨r, k⟩ : Item).nextSymbol g = some rule.right[k] := by
      simp [Item.nextSymbol, known, Array.getElem?_eq_getElem le]
    have moved := lookahead_moved (ih (Nat.le_of_succ_le le)) next
    simpa [List.take_add_one, Array.getElem?_eq_getElem le, Item.moved] using moved

end Grammar
end Lalr
