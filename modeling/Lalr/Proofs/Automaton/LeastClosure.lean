import Lalr.Proofs.First.Returned
import Lalr.Proofs.Lookup.Automaton

/-! The closure of a kernel is the least set of items with lookaheads that has the kernel and all
that its own items demand. Sets are compared item by item; the order in which items were found
does not matter. -/
namespace Lalr

open Grammar LookaheadSet

namespace ItemSet

/-- Each item of the set is in `M`, with at least the lookaheads that it has here. -/
def Below (items M : ItemSet) : Prop :=
  ∀ i lookaheads, items.get? i = some lookaheads →
    ∃ more, M.get? i = some more ∧ ∀ t ∈ lookaheads, t ∈ more

/-- For every item `[A := α . B β, L]` of the set and every rule `B := γ`, the set has
`[B := . γ]` with at least the terminals that begin what `β` derives, and with those of `L` if `β`
derives the empty form. -/
def Complete (g : Grammar) (items : ItemSet) : Prop :=
  ∀ i lookaheads, items.get? i = some lookaheads →
    ∀ rule ∈ g.rules.values, i.nextSymbol g = some (.nonterminal rule.left) →
      ∃ demanded, items.get? ⟨rule.id, 0⟩ = some demanded ∧
        (∀ t δ, g.Derives (i.behind g) (.terminal t :: δ) → t ∈ demanded) ∧
        (g.Derives (i.behind g) [] → ∀ t ∈ lookaheads, t ∈ demanded)

/-- `items` is the least complete set above the kernel. What it holds is justified by a chain of
demands that starts at the kernel, and demands concern only items whose marker is in front. -/
structure IsLeastClosure (g : Grammar) (kernel items : ItemSet) : Prop where
  above : kernel.Below items
  complete : items.Complete g
  least : ∀ M : ItemSet, kernel.Below M → M.Complete g → items.Below M
  core : ∀ i ∈ items.keys, CloseCore g kernel.lookaheadSet i
  lookahead : ∀ i lookaheads, items.get? i = some lookaheads →
    ∀ t ∈ lookaheads, CloseLookahead g kernel.lookaheadSet i t
  moved : ∀ i, i.marker ≠ 0 → items.get? i = kernel.get? i

variable {g : Grammar} {kernel items M : ItemSet} {i : Item} {t : TerminalId}

theorem lookahead_iff {lookaheads : TerminalSet} (entry : items.get? i = some lookaheads) :
    items.lookaheadSet.lookahead i t ↔ t ∈ lookaheads := by
  change t ∈ (items.get? i).getD ∅ ↔ _
  rw [entry, Option.getD_some]

/-- Sets that agree about an item have the same entry for it. -/
theorem get?_eq_of_iff (core : i ∈ items.keys ↔ i ∈ M.keys)
    (lookahead : ∀ t, items.lookaheadSet.lookahead i t ↔ M.lookaheadSet.lookahead i t) :
    items.get? i = M.get? i := by
  by_cases member : i ∈ items.keys
  · obtain ⟨s, entry⟩ := OrderedMap.mem_keys_iff.1 member
    obtain ⟨s', entry'⟩ := OrderedMap.mem_keys_iff.1 (core.1 member)
    rw [entry, entry']
    congr
    ext t
    rw [← lookahead_iff entry, lookahead, lookahead_iff entry']
  · rw [OrderedMap.get?_eq_none_iff.2 member, OrderedMap.get?_eq_none_iff.2 (mt core.2 member)]

/-- A complete set above the kernel has all items of the closure. -/
theorem Complete.core (complete : M.Complete g) (above : kernel.Below M)
    (h : CloseCore g kernel.lookaheadSet i) : i ∈ M.keys := by
  induction h with
  | kernel inKernel =>
    obtain ⟨own, entry⟩ := OrderedMap.mem_keys_iff.1 inKernel
    obtain ⟨more, found, -⟩ := above _ own entry
    exact OrderedMap.mem_keys_of_get? found
  | expand _ inRules next ih =>
    obtain ⟨own, entry⟩ := OrderedMap.mem_keys_iff.1 ih
    obtain ⟨demanded, found, -⟩ := complete _ own entry _ inRules next
    exact OrderedMap.mem_keys_of_get? found

/-- A complete set above the kernel has all lookaheads of the closure. -/
theorem Complete.lookahead (complete : M.Complete g) (above : kernel.Below M)
    (h : CloseLookahead g kernel.lookaheadSet i t) : M.lookaheadSet.lookahead i t := by
  induction h with
  | @kernel i t inKernel =>
    obtain ⟨own, entry⟩ := OrderedMap.mem_keys_iff.1 (kernel.supported i t inKernel)
    obtain ⟨more, found, gained⟩ := above i own entry
    exact (lookahead_iff found).2 (gained t ((lookahead_iff entry).1 inKernel))
  | first core inRules next first =>
    obtain ⟨own, entry⟩ := OrderedMap.mem_keys_iff.1 (complete.core above core)
    obtain ⟨demanded, found, begins, -⟩ := complete _ own entry _ inRules next
    obtain ⟨δ, derived⟩ := first
    exact (lookahead_iff found).2 (begins _ δ derived)
  | @follow i t _ _ inRules next empty ih =>
    obtain ⟨own, entry⟩ := OrderedMap.mem_keys_iff.1 (M.supported i t ih)
    obtain ⟨demanded, found, -, passes⟩ := complete i own entry _ inRules next
    exact (lookahead_iff found).2 (passes empty t ((lookahead_iff entry).1 ih))

/-- A set with the items and the lookaheads of the closure is the least one. -/
theorem isLeastClosure_of_eq (exact : items.lookaheadSet = kernel.lookaheadSet.close g) :
    IsLeastClosure g kernel items := by
  have core (i : Item) : i ∈ items.keys ↔ CloseCore g kernel.lookaheadSet i :=
    iff_of_eq (congrFun (congrArg LookaheadSet.core exact) i)
  have lookahead (i : Item) (t : TerminalId) :
      items.lookaheadSet.lookahead i t ↔ CloseLookahead g kernel.lookaheadSet i t :=
    iff_of_eq (congrFun (congrFun (congrArg LookaheadSet.lookahead exact) i) t)
  constructor
  case above =>
    intro i own entry
    have member : i ∈ kernel.keys := OrderedMap.mem_keys_of_get? entry
    obtain ⟨more, found⟩ := OrderedMap.mem_keys_iff.1 ((core i).2 (.kernel member))
    refine ⟨more, found, fun t inOwn => (lookahead_iff found).1 ?_⟩
    exact (lookahead i t).2 (.kernel ((lookahead_iff entry).2 inOwn))
  case complete =>
    intro i own entry rule inRules next
    have closed := (core i).1 (OrderedMap.mem_keys_of_get? entry)
    obtain ⟨demanded, found⟩ := OrderedMap.mem_keys_iff.1
      ((core ⟨rule.id, 0⟩).2 (.expand closed inRules next))
    refine ⟨demanded, found, fun t δ derived => ?_, fun empty t inOwn => ?_⟩
    · exact (lookahead_iff found).1 ((lookahead _ t).2 (.first closed inRules next ⟨δ, derived⟩))
    · have passed := (lookahead i t).1 ((lookahead_iff entry).2 inOwn)
      exact (lookahead_iff found).1 ((lookahead _ t).2 (.follow passed inRules next empty))
  case least =>
    intro M above complete i own entry
    obtain ⟨more, found⟩ := OrderedMap.mem_keys_iff.1
      (complete.core above ((core i).1 (OrderedMap.mem_keys_of_get? entry)))
    refine ⟨more, found, fun t inOwn => (lookahead_iff found).1 (complete.lookahead above ?_)⟩
    exact (lookahead i t).1 ((lookahead_iff entry).2 inOwn)
  case core => exact fun i => (core i).1
  case lookahead =>
    intro i own entry t inOwn
    exact (lookahead i t).1 ((lookahead_iff entry).2 inOwn)
  case moved =>
    intro i other
    refine get?_eq_of_iff ((core i).trans ?_) fun t => (lookahead i t).trans ?_
    · refine ⟨fun closed => ?_, fun inKernel => CloseCore.kernel inKernel⟩
      cases closed with
      | kernel inKernel => exact inKernel
      | expand => exact absurd rfl other
    · refine ⟨fun closed => ?_, CloseLookahead.kernel⟩
      cases closed with
      | kernel inKernel => exact inKernel
      | first => exact absurd rfl other
      | follow => exact absurd rfl other

end ItemSet

/-- The computation of a closure finds all that it looks up, and what it ends with is least. -/
theorem closure_isLeastClosure {g : Grammar} (h : g.Returned) {kernel : ItemSet}
    (ruled : kernel.Ruled g) :
    closure? g (.compute g) kernel = some (closure g (.compute g) kernel) ∧
      kernel.IsLeastClosure g (closure g (.compute g) kernel) :=
  ⟨closure?_eq h.linked ruled, ItemSet.isLeastClosure_of_eq (lookaheadSet_closure h.linked kernel)⟩

/-- The items `[S := A . S b]` and `[A := C .]`, both before `a`. -/
def movedItems : ItemSet :=
  .ofList [(⟨⟨1⟩, 1⟩, .singleton ⟨3⟩), (⟨⟨3⟩, 1⟩, .singleton ⟨3⟩)]

/-- From `[S := A . S b]` the closure reaches every rule but the accepting one. -/
theorem closure_isLeastClosure_movedItems :
    let g := (Builder.initial.declareAll FirstSets.partlyProductive).2.finish
    let items := closure g (.compute g) movedItems
    g.Returned ∧ movedItems.Ruled g ∧ movedItems.IsLeastClosure g items ∧
      items.keys = [⟨⟨1⟩, 1⟩, ⟨⟨3⟩, 1⟩, ⟨⟨1⟩, 0⟩, ⟨⟨2⟩, 0⟩, ⟨⟨3⟩, 0⟩, ⟨⟨4⟩, 0⟩, ⟨⟨5⟩, 0⟩,
        ⟨⟨6⟩, 0⟩] ∧
      items.get? ⟨⟨5⟩, 0⟩ = some (.ofList [⟨3⟩, ⟨4⟩]) ∧
      items.get? ⟨⟨3⟩, 1⟩ = some (.singleton ⟨3⟩) := by
  intro g items
  have returned : g.Returned := .steps FirstSets.partlyProductive
  have ruled : movedItems.Ruled g := by
    have known : movedItems.keys.all (fun i => (g.rule? i.rule).isSome) = true := by
      decide +kernel
    exact fun i member => Option.isSome_iff_exists.1 (List.all_eq_true.1 known i member)
  obtain ⟨-, least⟩ := closure_isLeastClosure returned ruled
  exact ⟨returned, ruled, least, by decide +kernel, by decide +kernel,
    least.moved ⟨⟨3⟩, 1⟩ (by decide)⟩

end Lalr
