import Lalr.Proofs.Grammar.Derivation
import Lalr.Proofs.Grammar.WellFormed

/-! Parse trees. The rules of a tree in post-order are those that a bottom-up parser reduces
by. They and the root determine the tree. -/
namespace Lalr

/-- A terminal, or a rule above the trees of its right-hand side. -/
inductive Tree where
  | leaf (t : TerminalId)
  | node (rule : Rule) (children : List Tree)

namespace Tree

def root : Tree → Symbol
  | leaf t => .terminal t
  | node rule _ => .nonterminal rule.left

mutual

/-- The terminals at the leaves, from left to right. -/
def yield : Tree → List TerminalId
  | leaf t => [t]
  | node _ children => yields children

def yields : List Tree → List TerminalId
  | [] => []
  | tree :: rest => tree.yield ++ yields rest

end

mutual

/-- The rules at the nodes, each after those below it. -/
def postOrder : Tree → List RuleId
  | leaf _ => []
  | node rule children => postOrders children ++ [rule.id]

def postOrders : List Tree → List RuleId
  | [] => []
  | tree :: rest => tree.postOrder ++ postOrders rest

end

mutual

/-- Each node applies a rule of the grammar. -/
def Valid (g : Grammar) : Tree → Prop
  | leaf _ => True
  | node rule children =>
    g.rule? rule.id = some rule ∧ children.map root = rule.right.toList ∧ AllValid g children

def AllValid (g : Grammar) : List Tree → Prop
  | [] => True
  | tree :: rest => tree.Valid g ∧ AllValid g rest

end

structure Parses (g : Grammar) (n : NonterminalId) (tree : Tree) : Prop where
  valid : tree.Valid g
  root : tree.root = .nonterminal n

variable {g : Grammar}

theorem allValid_iff {trees : List Tree} : AllValid g trees ↔ ∀ tree ∈ trees, tree.Valid g := by
  induction trees with
  | nil => simp [AllValid]
  | cons tree rest ih => rw [AllValid, ih, List.forall_mem_cons]

@[simp] theorem yields_append (front back : List Tree) :
    yields (front ++ back) = yields front ++ yields back := by
  induction front with
  | nil => rfl
  | cons tree rest ih => simp [yields, ih]

@[simp] theorem postOrders_append (front back : List Tree) :
    postOrders (front ++ back) = postOrders front ++ postOrders back := by
  induction front with
  | nil => rfl
  | cons tree rest ih => simp [postOrders, ih]

mutual

/-- The root of a tree derives its yield. -/
theorem Valid.derives : {tree : Tree} → tree.Valid g →
    g.Derives [tree.root] (tree.yield.map .terminal)
  | leaf _, _ => .refl
  | node rule children, h => by
    rw [Valid] at h
    obtain ⟨known, roots, valid⟩ := h
    have member : rule ∈ g.rules.values := OrderedMap.mem_values_iff.2 ⟨_, known⟩
    have below := AllValid.derives valid
    rw [roots] at below
    rw [yield]
    exact (Grammar.derives_of_rule member).trans below

theorem AllValid.derives : {trees : List Tree} → AllValid g trees →
    g.Derives (trees.map root) ((yields trees).map .terminal)
  | [], _ => .refl
  | tree :: rest, h => by
    rw [AllValid] at h
    rw [yields, List.map_append]
    exact Grammar.Derives.append (α := [tree.root]) h.1.derives h.2.derives

end

/-- What a form derives is the yield of trees above it. -/
theorem exists_trees (wf : g.WellFormed) {α : List Symbol} {w : List TerminalId}
    (h : g.Derives α (w.map .terminal)) :
    ∃ trees, AllValid g trees ∧ trees.map root = α ∧ yields trees = w := by
  obtain ⟨β, form⟩ : ∃ β, w.map Symbol.terminal = β := ⟨_, rfl⟩
  rw [form, Grammar.derives_iff_expands] at h
  induction h generalizing w with
  | nil => exact ⟨[], trivial, rfl, (List.map_eq_nil_iff.1 form).symm⟩
  | keep X _ ih =>
    obtain ⟨t, v, rfl, rfl, rest⟩ := List.map_eq_cons_iff.1 form
    obtain ⟨trees, valid, roots, rfl⟩ := ih rest
    exact ⟨.leaf t :: trees, ⟨trivial, valid⟩, by rw [List.map_cons, roots]; rfl, rfl⟩
  | @expand _ _ _ rule member _ _ below others =>
    obtain ⟨u, v, rfl, front, rest⟩ := List.map_eq_append_iff.1 form
    obtain ⟨children, valid, roots, rfl⟩ := below front
    obtain ⟨trees, valid', roots', rfl⟩ := others rest
    refine ⟨.node rule children :: trees, ⟨⟨wf.rule?_id member, roots, valid⟩, valid'⟩, ?_, rfl⟩
    rw [List.map_cons, roots']
    rfl

mutual

/-- A common part in front, then the rules of a tree: both can be told apart. -/
theorem eq_of_append_postOrder : {first second : Tree} → first.Valid g → second.Valid g →
    first.root = second.root → {k l : List RuleId} →
    k ++ first.postOrder = l ++ second.postOrder → k = l ∧ first = second
  | leaf t, leaf u, _, _, same, _, _, eq => by
    cases same
    simpa [postOrder] using eq
  | node rule children, node rule' children', h, h', _, _, _, eq => by
    rw [Valid] at h h'
    rw [postOrder, postOrder, ← List.append_assoc, ← List.append_assoc] at eq
    obtain ⟨before, ids⟩ := List.append_inj' eq rfl
    have rules : rule = rule' := by
      have := h.1
      rw [(List.cons_eq_cons.1 ids).1, h'.1, Option.some.injEq] at this
      exact this.symm
    subst rules
    obtain ⟨front, below⟩ := eq_of_append_postOrders h.2.2 h'.2.2
      (h.2.1.trans h'.2.1.symm) before
    exact ⟨front, by rw [below]⟩

theorem eq_of_append_postOrders : {first second : List Tree} → AllValid g first →
    AllValid g second → first.map root = second.map root → {k l : List RuleId} →
    k ++ postOrders first = l ++ postOrders second → k = l ∧ first = second
  | [], [], _, _, _, _, _, eq => by simpa [postOrders] using eq
  | tree :: rest, tree' :: rest', h, h', same, _, _, eq => by
    rw [AllValid] at h h'
    rw [List.map_cons, List.map_cons, List.cons_eq_cons] at same
    rw [postOrders, postOrders, ← List.append_assoc, ← List.append_assoc] at eq
    obtain ⟨before, rests⟩ := eq_of_append_postOrders h.2 h'.2 same.2 eq
    obtain ⟨front, trees⟩ := eq_of_append_postOrder h.1 h'.1 same.1 before
    exact ⟨front, by rw [trees, rests]⟩

end

/-- The root and the rules in post-order determine a tree. -/
theorem eq_of_postOrder {first second : Tree} (h : first.Valid g) (h' : second.Valid g)
    (same : first.root = second.root) (eq : first.postOrder = second.postOrder) :
    first = second :=
  (eq_of_append_postOrder h h' same (k := []) (l := []) (by simpa using eq)).2

end Tree
end Lalr
