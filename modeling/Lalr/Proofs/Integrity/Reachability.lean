import Lalr.Integrity
import Lalr.Proofs.Grammar.Reachable
import Mathlib.Data.List.Perm.Subperm

/-! The search for unreachable nonterminals finds exactly those that the start symbol does not
lead to. Each nonterminal is met once, so there are no more steps than nonterminals. -/
namespace Lalr.Integrity

variable {g : Grammar} {start n m : NonterminalId} {ns : List NonterminalId}

namespace Reach

variable {r r' : Reach}

theorem mem_found_meet : m ∈ (r.meet n).found ↔ m = n ∨ m ∈ r.found := by
  unfold meet
  split <;> grind

theorem mem_pending_meet :
    m ∈ (r.meet n).pending.toList ↔ m = n ∧ n ∉ r.found ∨ m ∈ r.pending.toList := by
  unfold meet
  split
  · grind
  · rw [WorkList.mem_push]
    grind

/-- Steps are bounded by the nonterminals that wait and those that are still to be found. -/
def measure (g : Grammar) (r : Reach) : Nat :=
  r.pending.toList.length + (g.nonterminals.keys.length - r.found.length)

structure Bounded (g : Grammar) (r : Reach) : Prop where
  declared : ∀ n ∈ r.found, n ∈ g.nonterminals.keys
  nodup : r.found.Nodup

theorem Bounded.length_le (h : r.Bounded g) : r.found.length ≤ g.nonterminals.keys.length :=
  (List.subperm_of_subset h.nodup h.declared).length_le

theorem Bounded.meet (h : r.Bounded g) (here : n ∈ g.nonterminals.keys) :
    (r.meet n).Bounded g where
  declared m member := by
    rcases mem_found_meet.1 member with rfl | member
    · exact here
    · exact h.declared m member
  nodup := by
    unfold Reach.meet
    split
    · exact h.nodup
    · next new => exact List.nodup_cons.2 ⟨by simpa using new, h.nodup⟩

theorem measure_meet (h : r.Bounded g) (here : n ∈ g.nonterminals.keys) :
    (r.meet n).measure g ≤ r.measure g := by
  have fits := (h.meet here).length_le
  have pushed := WorkList.length_push_le r.pending n
  unfold meet at fits ⊢
  split at fits
  · next old => exact Nat.le_of_eq (congrArg (measure g) (if_pos old))
  · next new =>
    rw [if_neg new]
    simp only [measure, List.length_cons] at fits ⊢
    omega

structure Met (g : Grammar) (ns : List NonterminalId) (r r' : Reach) : Prop where
  bounded : r'.Bounded g
  found : ∀ m, m ∈ r'.found ↔ m ∈ ns ∨ m ∈ r.found
  waiting : ∀ m ∈ r.pending.toList, m ∈ r'.pending.toList
  fresh : ∀ m ∈ r'.pending.toList, m ∈ ns ∨ m ∈ r.pending.toList
  grown : ∀ m ∈ r'.found, m ∈ r'.pending.toList ∨ m ∈ r.found
  measure : r'.measure g ≤ r.measure g

theorem met_foldl (h : r.Bounded g) (declared : ∀ n ∈ ns, n ∈ g.nonterminals.keys) :
    Met g ns r (ns.foldl meet r) := by
  induction ns generalizing r with
  | nil => exact ⟨h, by simp, by simp, by simp, fun _ => .inr, Nat.le_refl _⟩
  | cons n rest ih =>
    obtain ⟨here, others⟩ := List.forall_mem_cons.1 declared
    have later := ih (h.meet here) others
    rw [List.foldl_cons]
    constructor
    case bounded => exact later.bounded
    case found =>
      intro m
      rw [later.found, mem_found_meet, List.mem_cons]
      exact or_left_comm.trans or_assoc.symm
    case waiting => exact fun m member => later.waiting m (mem_pending_meet.2 (.inr member))
    case fresh =>
      intro m member
      rw [List.mem_cons]
      rcases later.fresh m member with member | member
      · exact .inl (.inr member)
      · rcases mem_pending_meet.1 member with ⟨rfl, -⟩ | member
        · exact .inl (.inl rfl)
        · exact .inr member
    case grown =>
      intro m member
      rcases later.grown m member with waits | member
      · exact .inl waits
      · by_cases old : m ∈ r.found
        · exact .inr old
        · obtain rfl := (mem_found_meet.1 member).resolve_right old
          exact .inl (later.waiting m (mem_pending_meet.2 (.inl ⟨rfl, old⟩)))
    case measure => exact Nat.le_trans later.measure (measure_meet h here)

def neighbours (g : Grammar) (n : NonterminalId) : List NonterminalId :=
  (g.rulesOf n).flatMap fun rule => rule.right.toList.filterMap Symbol.nonterminal?

theorem mem_neighbours : m ∈ neighbours g n ↔
    ∃ rule ∈ g.rules.values, rule.left = n ∧ .nonterminal m ∈ rule.right.toList := by
  have occurs (X : Symbol) : X.nonterminal? = some m ↔ X = .nonterminal m := by
    cases X <;> simp [Symbol.nonterminal?]
  simp only [neighbours, Grammar.rulesOf, List.mem_flatMap, List.mem_filter, decide_eq_true_eq,
    List.mem_filterMap, occurs, exists_eq_right, and_assoc]

/-- What holds between steps: what has been found is reachable, and waits unless all that stands
in its rules has been found. -/
structure Valid (g : Grammar) (start : NonterminalId) (r : Reach) : Prop where
  bounded : r.Bounded g
  sound : ∀ n ∈ r.found, n = .start ∨ g.Reachable n
  waiting : ∀ n ∈ r.pending.toList, g.Reachable n
  reserved : .start ∈ r.found
  first : start ∈ r.found
  settled : ∀ n ∈ r.found, n ∈ r.pending.toList ∨ n = .start ∨ ∀ m ∈ neighbours g n, m ∈ r.found

theorem step_valid (wf : g.WellFormed) (h : r.Valid g start) (ongoing : r.more = true) :
    (r.step g).Valid g start ∧ (r.step g).measure g < r.measure g := by
  obtain ⟨n, pending, popped, split⟩ := WorkList.exists_pop ongoing
  have reachable : g.Reachable n := h.waiting n (by simp [split])
  have declared : ∀ m ∈ neighbours g n, m ∈ g.nonterminals.keys := by
    intro m member
    obtain ⟨rule, inRules, -, inRight⟩ := mem_neighbours.1 member
    exact (wf.nonterminal rule inRules m inRight).2
  have rest : Bounded g { r with pending } := ⟨h.bounded.declared, h.bounded.nodup⟩
  have next : ∀ m ∈ neighbours g n, g.Reachable m := by
    intro m member
    obtain ⟨rule, inRules, rfl, inRight⟩ := mem_neighbours.1 member
    exact .right reachable inRules inRight
  have met := met_foldl rest declared
  have less : measure g { r with pending } < r.measure g := by
    simp only [measure, split, List.length_cons]
    omega
  rw [step, popped]
  refine ⟨?_, Nat.lt_of_le_of_lt met.measure less⟩
  constructor
  case bounded => exact met.bounded
  case sound =>
    intro m member
    rcases (met.found m).1 member with new | old
    · exact .inr (next m new)
    · exact h.sound m old
  case waiting =>
    intro m member
    rcases met.fresh m member with new | old
    · exact next m new
    · exact h.waiting m (by simp [split, old])
  case reserved => exact (met.found _).2 (.inr h.reserved)
  case first => exact (met.found _).2 (.inr h.first)
  case settled =>
    intro m member
    rcases met.grown m member with waits | old
    · exact .inl waits
    · rcases h.settled m old with waits | reserved | closed
      · rw [split, List.mem_cons] at waits
        rcases waits with rfl | waits
        · exact .inr (.inr fun k near => (met.found k).2 (.inl near))
        · exact .inl (met.waiting m waits)
      · exact .inr (.inl reserved)
      · exact .inr (.inr fun k near => (met.found k).2 (.inr (closed k near)))

theorem valid_initial (wf : g.WellFormed) (known : g.start = some start) :
    Valid g start ⟨[start, .start], WorkList.empty.push start⟩ := by
  obtain ⟨other, declared⟩ := wf.start start known
  have reserved := wf.left_declared _ (Grammar.mem_rules (wf.accept start known))
  constructor
  case bounded => exact ⟨by simpa using ⟨declared, reserved⟩, by simpa using other⟩
  case sound => simpa using Or.inr (.start known)
  case waiting =>
    intro n member
    obtain rfl : n = start := by simpa [WorkList.mem_push] using member
    exact .start known
  case reserved => simp
  case first => simp
  case settled => simp [WorkList.mem_push]

end Reach

open Reach

/-- The search finds `$start` and what is reachable. -/
theorem mem_reachable (wf : g.WellFormed) (known : g.start = some start) :
    n ∈ reachable g start ↔ n = .start ∨ g.Reachable n := by
  have enough : Reach.measure g ⟨[start, .start], WorkList.empty.push start⟩ ≤
      g.nonterminals.size + 1 := by
    have pushed := WorkList.length_push_le WorkList.empty start
    simp only [WorkList.toList_empty, List.length_nil] at pushed
    simp only [Reach.measure, OrderedMap.keys, OrderedMap.size, List.length_map]
    omega
  obtain ⟨valid, done⟩ := iterate_done (P := Reach.Valid g start) (Reach.measure g)
    (fun r h ongoing => step_valid wf h ongoing) (valid_initial wf known) enough
  refine ⟨valid.sound n, ?_⟩
  rintro (rfl | path)
  · exact valid.reserved
  induction path with
  | start known' => exact Option.some.inj (known.symm.trans known') ▸ valid.first
  | @right n rule path inRules inRight ih =>
    have idle := WorkList.isEmpty_iff.1 (by simpa [more] using done)
    rcases valid.settled _ ih with waits | reserved | closed
    · cases idle ▸ waits
    · exact absurd reserved (path.declared wf).1
    · exact closed n (mem_neighbours.2 ⟨rule, inRules, rfl, inRight⟩)

def ReportsUnreachable (g : Grammar) (n : NonterminalId) : Prop :=
  ∃ d ∈ checkUnreachable g, d.symbol = some (.nonterminal n)

theorem reportsUnreachable_iff (wf : g.WellFormed) (accept : g.start.isSome) :
    ReportsUnreachable g n ↔ n ∈ g.nonterminals.keys ∧ n ≠ .start ∧ ¬ g.Reachable n := by
  obtain ⟨start, known⟩ := Option.isSome_iff_exists.1 accept
  simp only [ReportsUnreachable, checkUnreachable, known, List.mem_map, List.mem_filter,
    Bool.not_eq_true', List.contains_eq_mem, decide_eq_false_iff_not, mem_reachable wf known,
    not_or]
  constructor
  · rintro ⟨_, ⟨m, found, rfl⟩, same⟩
    cases same
    exact found
  · exact fun missing => ⟨_, ⟨n, missing, rfl⟩, rfl⟩

end Lalr.Integrity
