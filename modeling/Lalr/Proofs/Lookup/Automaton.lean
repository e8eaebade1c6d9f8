import Lalr.Proofs.Automaton.Exact
import Lalr.Proofs.Lookup.First

/-! The construction of the automaton finds every rule, set, state and kernel item that it looks
up. Items are of known rules because kernels have items of the grammar; a kernel that is merged into
that of an interned state has its items. -/
namespace Lalr

open Grammar LookaheadSet

variable {g : Grammar} {i : Item} {items kernel old : ItemSet}

def ItemSet.Ruled (g : Grammar) (items : ItemSet) : Prop :=
  ∀ i ∈ items.keys, ∃ rule, g.rule? i.rule = some rule

/-- As `nextSymbol`, where the rule has to be found. That nothing is behind the marker is no
miss. -/
def Item.nextSymbol? (g : Grammar) (i : Item) : Option (Option Symbol) :=
  (g.rule? i.rule).map fun rule => rule.right[i.marker]?

theorem Item.nextSymbol?_eq {rule : Rule} (known : g.rule? i.rule = some rule) :
    i.nextSymbol? g = some (i.nextSymbol g) := by
  rw [nextSymbol?, nextSymbol, known]
  rfl

namespace Closing

def expand? (g : Grammar) (first : FirstSets) (c : Closing) (i : Item) : Option Closing := do
  let rule ← g.rule? i.rule
  match rule.right[i.marker]? with
  | some (.nonterminal n) =>
    let own ← c.items.get? i
    let lookaheads ← first.ofSequence? own (rule.right.toList.drop (i.marker + 1))
    return (g.rulesOf n).foldl (demand lookaheads) c
  | _ => return c

def step? (g : Grammar) (first : FirstSets) (c : Closing) : Option Closing :=
  match c.pending.pop with
  | none => some c
  | some (i, pending) => expand? g first { c with pending } i

end Closing

def closure? (g : Grammar) (first : FirstSets) (kernel : ItemSet) : Option ItemSet :=
  let fuel := (kernel.size + g.rules.size) * (UInt16.size + 1)
  (iterate? Closing.more (Closing.step? g first) fuel ⟨kernel, .ofList kernel.keys⟩).map (·.items)

/-- The closure adds items of rules of the grammar. -/
theorem ItemSet.Ruled.close (linked : g.Linked) (ruled : kernel.Ruled g)
    (member : CloseCore g kernel.lookaheadSet i) : ∃ rule, g.rule? i.rule = some rule := by
  induction member with
  | kernel inKernel => exact ruled _ inKernel
  | expand _ inRules _ _ => exact ⟨_, linked.rule?_id inRules⟩

namespace Closing

theorem expand?_eq (linked : g.Linked) {c : Closing} {rule : Rule}
    (known : g.rule? i.rule = some rule) (present : i ∈ c.items.keys) :
    expand? g (.compute g) c i = some (expand g (.compute g) c i) := by
  obtain ⟨own, entry⟩ := OrderedMap.mem_keys_iff.1 present
  have next : i.nextSymbol g = rule.right[i.marker]? := by rw [Item.nextSymbol, known]; rfl
  have found : (FirstSets.compute g).ofSequence? own (rule.right.toList.drop (i.marker + 1)) =
      some ((FirstSets.compute g).ofSequence own (rule.right.toList.drop (i.marker + 1))) := by
    refine FirstSets.ofSequence?_eq fun n behind => ?_
    rw [(FirstSets.compute?_eq linked).2]
    exact linked.right rule (mem_rules known) n (List.mem_of_mem_drop behind)
  rw [expand?, expand, known, next]
  simp only [bind, Option.bind_some]
  cases rule.right[i.marker]? with
  | none => rfl
  | some X =>
    cases X with
    | terminal t => rfl
    | nonterminal n =>
      simp only [entry, Option.bind_some, found, FirstSets.ofSequenceFrom_eq, Option.getD_some]
      rfl

theorem step?_eq (linked : g.Linked) (ruled : kernel.Ruled g) {c : Closing} (h : Valid g kernel c)
    (ongoing : more c = true) : step? g (.compute g) c = some (step g (.compute g) c) := by
  obtain ⟨i, pending, popped, split⟩ := WorkList.exists_pop ongoing
  have present : i ∈ c.items.keys := h.waiting i (by simp [split])
  obtain ⟨rule, known⟩ := ruled.close linked (h.core i present)
  rw [step?, step, popped]
  exact expand?_eq linked known present

end Closing

theorem closure?_eq (linked : g.Linked) (ruled : kernel.Ruled g) :
    closure? g (.compute g) kernel = some (closure g (.compute g) kernel) := by
  have loop := iterate?_eq (P := Closing.Valid g kernel)
    (fun c valid ongoing => ⟨Closing.step?_eq linked ruled valid ongoing,
      (Closing.step_valid linked valid ongoing).1⟩)
    ((kernel.size + g.rules.size) * (UInt16.size + 1)) (Closing.initial_valid g kernel)
  rw [closure?, closure, loop, Option.map_some]

theorem closure_ruled (linked : g.Linked) (ruled : kernel.Ruled g) :
    (closure g (.compute g) kernel).Ruled g := by
  intro i member
  have closed : (closure g (.compute g) kernel).lookaheadSet.core i := member
  rw [lookaheadSet_closure linked] at closed
  exact ruled.close linked closed

def successors? (g : Grammar) (items : ItemSet) : Option (OrderedMap Symbol ItemSet) :=
  items.toList.foldlM (fun kernels (i, lookaheads) => do
    match ← i.nextSymbol? g with
    | none => return kernels
    | some symbol =>
      return kernels.insert symbol
        (((kernels.get? symbol).getD ∅).addLookaheads i.advance lookaheads)) ∅

theorem successors?_eq (ruled : items.Ruled g) :
    successors? g items = some (successors g items) := by
  refine (foldlM_eq (P := fun _ => True) (fun kernels e member _ => ⟨?_, trivial⟩) trivial).1
  obtain ⟨rule, known⟩ := ruled e.1 (List.mem_map_of_mem member)
  dsimp only
  rw [Item.nextSymbol?_eq known]
  simp only [bind, Option.bind_some]
  cases e.1.nextSymbol g <;> rfl

def ItemSet.absorb? (old kernel : ItemSet) : Option ItemSet :=
  kernel.toList.foldlM (fun items (i, lookaheads) => do
    return items.insert i ((← items.get? i) ∪ lookaheads)) old

theorem ItemSet.absorb?_eq (same : old.keys = kernel.keys) :
    old.absorb? kernel = some (old.absorb kernel) := by
  refine (foldlM_eq (P := fun items : ItemSet => items.keys = kernel.keys)
    (fun items e member keys => ?_) same).1
  have present : e.1 ∈ items.keys := keys ▸ List.mem_map_of_mem member
  obtain ⟨own, entry⟩ := OrderedMap.mem_keys_iff.1 present
  dsimp only [addLookaheads]
  rw [entry, OrderedMap.keys_insert, if_pos present]
  exact ⟨rfl, keys⟩

namespace Construction

variable {c : Construction} {edges : OrderedMap Symbol Nat}

def merge? (c : Construction) (i : Nat) (kernel : ItemSet) : Option Construction := do
  let old ← c.kernels[i]?
  let new ← old.absorb? kernel
  return if new = old then c
    else { c with kernels := c.kernels.setIfInBounds i new, pending := c.pending.push i }

/-- As `intern`. That no state has the items of the kernel is no miss. -/
def intern? (c : Construction) (kernel : ItemSet) :
    Option (Except AutomatonError (Nat × Construction)) :=
  match c.numbers[kernel.keys]? with
  | some i => do return .ok (i, ← c.merge? i kernel)
  | none => some (c.intern kernel)

def internAll? (c : Construction) (edges : OrderedMap Symbol Nat) :
    List (Symbol × ItemSet) →
      Option (Except AutomatonError (OrderedMap Symbol Nat × Construction))
  | [] => some (.ok (edges, c))
  | (symbol, kernel) :: rest => do
    match ← c.intern? kernel.sortKeys with
    | .error e => return .error e
    | .ok (i, c) => c.internAll? (edges.insert symbol i) rest

def step? (g : Grammar) (first : FirstSets) (c : Construction) :
    Option (Except AutomatonError Construction) :=
  match c.pending.pop with
  | none => some (.ok c)
  | some (i, pending) => do
    let kernel ← c.kernels[i]?
    let successors ← successors? g (← closure? g first kernel)
    match ← { c with pending }.internAll? ∅ successors.toList with
    | .error e => return .error e
    | .ok (edges, c) =>
      let _ ← c.edges[i]?
      return .ok { c with edges := c.edges.setIfInBounds i edges }

def finish? (g : Grammar) (first : FirstSets) (kernel : ItemSet) (edges : OrderedMap Symbol Nat) :
    Option State := do
  return { finish g first kernel edges with items := ← closure? g first kernel }

end Construction

/-- As `construct`, where everything that is looked up has to be found. -/
def Automaton.construct? (g : Grammar) (first : FirstSets) :
    Option (Except AutomatonError Automaton) :=
  match g.acceptRule with
  | none => some (.ok ⟨#[]⟩)
  | some _ => do
    match ← iterateExcept? Construction.more (Construction.step? g first)
      (Construction.visitLimit g) .initial with
    | .error e => return .error e
    | .ok c =>
      let states ← (c.kernels.zip c.edges).toList.mapM fun (kernel, edges) =>
        Construction.finish? g first kernel edges
      return .ok ⟨states.toArray⟩

theorem Grammar.Contains.ruled (linked : g.Linked) (contains : g.Contains kernel.lookaheadSet) :
    kernel.Ruled g := by
  intro i member
  obtain ⟨rule, inRules, same, -⟩ := mem_items_iff.1 (contains i member)
  exact ⟨rule, same ▸ linked.rule?_id inRules⟩

namespace Construction

variable {c c' : Construction} {edges : OrderedMap Symbol Nat}

/-- The state that a kernel is merged into is there and has the same items. -/
theorem Sound.intern?_eq (h : Sound g c) (kernel : ItemSet) :
    c.intern? kernel = some (c.intern kernel) := by
  rw [intern?, intern]
  cases known : c.numbers[kernel.keys]? with
  | none => rfl
  | some i =>
    obtain ⟨old, entry, same⟩ := (h.numbers _ _).1 known
    have merged : c.merge? i kernel = some (c.merge i kernel) := by
      rw [merge?, merge, entry]
      simp only [bind, Option.bind_some, ItemSet.absorb?_eq same]
      rfl
    simp only [merged, bind, Option.bind_some]
    rfl

theorem Sound.internAll?_eq {entries : List (Symbol × ItemSet)} (h : Sound g c)
    (contains : ∀ e ∈ entries, g.Contains (ItemSet.lookaheadSet e.2)) :
    c.internAll? edges entries = some (c.internAll edges entries) := by
  induction entries generalizing c edges with
  | nil => rfl
  | cons e rest ih =>
    obtain ⟨X, kernel⟩ := e
    obtain ⟨here, others⟩ := List.forall_mem_cons.1 contains
    rw [internAll?, internAll, h.intern?_eq]
    simp only [bind, Option.bind_some]
    cases interned : c.intern kernel.sortKeys with
    | error e => rfl
    | ok r =>
      have sorted : g.Contains (ItemSet.lookaheadSet kernel.sortKeys) := by
        rwa [ItemSet.lookaheadSet_sortKeys]
      exact ih (intern_spec h kernel.pairwise_keys_sortKeys sorted interned).1 others

/-- A visit finds the state, its successors and, once these are interned, its edges. -/
theorem Valid.step?_eq (linked : g.Linked) (h : Valid g c)
    (ongoing : more c = true) : step? g (.compute g) c = some (step g (.compute g) c) := by
  obtain ⟨i, pending, K, popped, entry, sound, successor, visit⟩ := exists_visit linked h ongoing
  have ruled := (h.sound.contains i K entry).ruled linked
  have contains := fun e member => (successor e member).2
  have closed := closure?_eq linked ruled
  have followed := successors?_eq (closure_ruled linked ruled)
  rw [visit, step?, popped]
  dsimp only [bind]
  rw [entry, Option.bind_some, closed, Option.bind_some, followed, Option.bind_some,
    sound.internAll?_eq contains, Option.bind_some]
  cases interned : { c with pending }.internAll ∅
      (successors g (closure g (.compute g) K)).toList with
  | error e => rfl
  | ok r =>
    have all := internAll_interned sound contains interned
    obtain ⟨K', entry', -⟩ := all.grows.kernel i K entry
    have inside : i < r.2.edges.size := by
      rw [all.sound.edges]
      exact (Array.getElem?_eq_some_iff.1 entry').1
    simp only [Array.getElem?_eq_getElem inside, Option.bind_some]
    rfl

theorem finish?_eq (wf : g.WellFormed) (ruled : kernel.Ruled g) :
    finish? g (.compute g) kernel edges = some (finish g (.compute g) kernel edges) := by
  rw [finish?, closure?_eq wf.linked ruled]
  rfl

/-- The items of every kernel are of known rules. -/
theorem Sound.mapM_finish?_eq (wf : g.WellFormed) (h : Sound g c) :
    (c.kernels.zip c.edges).toList.mapM (fun e => finish? g (.compute g) e.1 e.2) =
      some (c.kernels.zipWith (finish g (.compute g)) c.edges).toList := by
  rw [Array.toList_zipWith, ← List.map_uncurry_zip_eq_zipWith, Array.toList_zip]
  refine mapM_eq fun e member => finish?_eq wf ?_
  obtain ⟨i, inside, entry⟩ := List.getElem_of_mem (List.of_mem_zip member).1
  rw [Array.getElem_toList] at entry
  exact (h.contains i e.1 (entry ▸ Array.getElem?_eq_getElem _)).ruled wf.linked

end Construction

theorem Automaton.construct?_eq (wf : g.WellFormed) :
    Automaton.construct? g (.compute g) = some (Automaton.construct g (.compute g)) := by
  cases start : g.start with
  | none => rw [construct?, construct, wf.no_accept start]
  | some n =>
    have accept : g.start.isSome := by rw [start]; rfl
    have accepts : g.acceptRule = some (Builder.acceptingRule n) := wf.accept n start
    have loop := iterateExcept?_eq (P := Construction.Valid g)
      (fun c valid ongoing => ⟨valid.step?_eq wf.linked ongoing,
        fun c' done => (Construction.step_valid wf.linked valid ongoing done).1⟩)
      (Construction.visitLimit g) (Construction.initial_valid wf.linked (wf.acceptRule accept))
    rw [construct?, construct_eq (wf.acceptRule accept), accepts]
    dsimp only
    rw [loop]
    cases done : iterateExcept Construction.more (Construction.step g (.compute g))
      (Construction.visitLimit g) .initial with
    | error e => rfl
    | ok c =>
      have sound := (Construction.loop_valid wf.linked (wf.acceptRule accept) done).1.sound
      have found := sound.mapM_finish?_eq wf
      simp only [bind, Option.bind_some, found]
      rfl

end Lalr
