import Lalr.Proofs.Grammar.Declarations
import Lalr.Proofs.Grammar.Defined
import Lalr.Proofs.Integrity.Reachability
import Mathlib.Logic.Relation

/-! What the checks of a grammar find: a start symbol that is missing or has no rules, each
nonterminal that is used without rules, reported at its first use, and each nonterminal that the
start symbol does not lead to. -/
namespace Lalr

/-- A place on the right of a user rule: the number of the rule and the place there. -/
structure Use where
  rule : Nat
  place : Nat

def Use.Before (u v : Use) : Prop := u.rule < v.rule ∨ u.rule = v.rule ∧ u.place < v.place

namespace Grammar

def UsedAt (g : Grammar) (u : Use) (n : NonterminalId) (rule : Rule) : Prop :=
  g.userRules[u.rule]? = some rule ∧ rule.right[u.place]? = some (.nonterminal n)

structure FirstUse (g : Grammar) (u : Use) (n : NonterminalId) (rule : Rule) : Prop where
  used : g.UsedAt u n rule
  first : ∀ v rule', g.UsedAt v n rule' → ¬ v.Before u

def HasRule (g : Grammar) (n : NonterminalId) : Prop := ∃ rule ∈ g.rules.values, rule.left = n

def Mentions (g : Grammar) (n m : NonterminalId) : Prop :=
  ∃ rule ∈ g.rules.values, rule.left = n ∧ .nonterminal m ∈ rule.right.toList

variable {g : Grammar} {n start : NonterminalId}

theorem reachable_iff (known : g.start = some start) :
    g.Reachable n ↔ Relation.ReflTransGen g.Mentions start n := by
  constructor
  · intro path
    induction path with
    | start known' => exact Option.some.inj (known.symm.trans known') ▸ .refl
    | @right n rule _ inRules inRight ih => exact ih.tail ⟨rule, inRules, rfl, inRight⟩
  · intro path
    induction path with
    | refl => exact .start known
    | tail _ mentions ih =>
      obtain ⟨rule, inRules, rfl, inRight⟩ := mentions
      exact .right ih inRules inRight

end Grammar

namespace Integrity

variable {g : Grammar} {u v : Use} {n m start : NonterminalId} {rule : Rule}

def undefinedSymbol (g : Grammar) (n : NonterminalId) (rule : Rule) : Diagnostic where
  kind := .undefinedSymbol
  message := "the nonterminal `" ++ g.nonterminalName n ++ "' is used in `" ++ g.ruleText rule ++
    "' but never defined"
  symbol := some (.nonterminal n)
  rule := some rule.id

def unreachableSymbol (g : Grammar) (n : NonterminalId) : Diagnostic where
  kind := .unreachableSymbol
  message := "the nonterminal `" ++ g.nonterminalName n ++ "' is unreachable from the start symbol"
  symbol := some (.nonterminal n)

def Startless (g : Grammar) : Prop := ∀ start, g.start = some start → ¬ g.HasRule start

/-- The report names each nonterminal that user rules use without rules, once, as an error at its
first use, in the order of these uses. -/
structure ReportsUndefined (g : Grammar) (report : Report) : Prop where
  named : ∀ n, (∃ d ∈ report, d.symbol = some (.nonterminal n)) ↔
    (∃ rule ∈ g.userRules, .nonterminal n ∈ rule.right.toList) ∧ ¬ g.HasRule n
  once : (report.map Diagnostic.symbol).Nodup
  ordered : ∃ uses : List (Use × NonterminalId × Rule),
    uses.Pairwise (fun a b => a.1.Before b.1) ∧
    (∀ u n rule, (u, n, rule) ∈ uses ↔ g.FirstUse u n rule ∧ ¬ g.HasRule n) ∧
    report = uses.map fun (_, n, rule) => undefinedSymbol g n rule
  severity : ∀ d ∈ report, d.severity = .error

/-- The report names each declared nonterminal but `$start` that the start symbol does not lead to,
once, as a warning, in the order of declaration. -/
def ReportsUnreachableFrom (g : Grammar) (start : NonterminalId) (report : Report) : Prop :=
  ∃ ns : List NonterminalId, ns.Sublist g.nonterminals.keys ∧ ns.Nodup ∧
    (∀ n, n ∈ ns ↔ n ∈ g.nonterminals.keys ∧ n ≠ .start ∧
      ¬ Relation.ReflTransGen g.Mentions start n) ∧
    report = ns.map (unreachableSymbol g) ∧ ∀ d ∈ report, d.severity = .warning

theorem mem_rulesOf_iff : rule ∈ g.rulesOf n ↔ rule ∈ g.rules.values ∧ rule.left = n := by
  simp [Grammar.rulesOf]

theorem rulesOf_eq_nil_iff : g.rulesOf n = [] ↔ ¬ g.HasRule n := by
  simp only [List.eq_nil_iff_forall_not_mem, mem_rulesOf_iff, Grammar.HasRule, not_exists]

theorem checkStart_of_startless (startless : Startless g) : ∃ d, checkStart g = [d] ∧
    d.kind = .malformedGrammar ∧ d.severity = .error ∧
      d.symbol = g.start.map Symbol.nonterminal := by
  rw [checkStart]
  cases known : g.start with
  | none => exact ⟨_, rfl, rfl, rfl, rfl⟩
  | some start =>
    have empty := rulesOf_eq_nil_iff.2 (startless start known)
    exact ⟨_, if_pos (List.isEmpty_iff.2 empty), rfl, rfl, rfl⟩

theorem checkStart_of_not_startless (h : ¬ Startless g) : checkStart g = [] := by
  obtain ⟨start, known, hasRule⟩ : ∃ start, g.start = some start ∧ g.HasRule start := by
    simpa [Startless] using h
  rw [checkStart, known]
  exact if_neg fun empty => rulesOf_eq_nil_iff.1 (List.isEmpty_iff.1 empty) hasRule

theorem Use.Before.asymm (h : u.Before v) : ¬ v.Before u := by
  unfold Use.Before at *
  omega

theorem Use.not_before_self : ¬ u.Before u := fun h => Use.Before.asymm h h

def usesAt (g : Grammar) : List (Use × NonterminalId × Rule) :=
  g.userRules.zipIdx.flatMap fun (rule, i) =>
    rule.right.toList.zipIdx.filterMap fun (X, j) => X.nonterminal?.map fun n => (⟨i, j⟩, n, rule)

theorem map_usesAt : (usesAt g).map Prod.snd = uses g := by
  have row (rule : Rule) (i : Nat) :
      (rule.right.toList.zipIdx.filterMap fun (X, j) =>
        X.nonterminal?.map fun n => ((⟨i, j⟩ : Use), n, rule)).map Prod.snd =
      (rule.right.toList.filterMap Symbol.nonterminal?).map (·, rule) := by
    conv_rhs => rw [← List.zipIdx_map_fst 0 rule.right.toList]
    simp only [List.map_filterMap, List.filterMap_map, Option.map_map, Function.comp_def]
  simp only [usesAt, uses, List.map_flatMap, row]
  conv_rhs => rw [← Grammar.userRules, ← List.zipIdx_map_fst 0 g.userRules, List.flatMap_map]

theorem mem_usesAt : (u, n, rule) ∈ usesAt g ↔ g.UsedAt u n rule := by
  obtain ⟨i, j⟩ := u
  have occurs (X : Symbol) : X.nonterminal? = some n ↔ X = .nonterminal n := by
    cases X <;> simp [Symbol.nonterminal?]
  simp only [usesAt, Grammar.UsedAt, List.mem_flatMap, List.mem_filterMap, Prod.exists,
    List.mem_zipIdx_iff_getElem?, Array.getElem?_toList, Option.map_eq_some_iff, Prod.mk.injEq,
    Use.mk.injEq]
  constructor
  · rintro ⟨rule', i', here, X, j', there, n', isN, ⟨rfl, rfl⟩, rfl, rfl⟩
    exact ⟨here, (occurs X).1 isN ▸ there⟩
  · rintro ⟨here, there⟩
    exact ⟨rule, i, here, _, j, there, n, rfl, ⟨rfl, rfl⟩, rfl, rfl⟩

theorem pairwise_zipIdx (xs : List α) : xs.zipIdx.Pairwise (fun a b => a.2 < b.2) := by
  rw [← List.pairwise_map (R := (· < ·)), List.zipIdx_map_snd]
  exact List.pairwise_lt_range'

theorem pairwise_usesAt : (usesAt g).Pairwise (fun a b => a.1.Before b.1) := by
  rw [usesAt, List.pairwise_flatMap]
  constructor
  · rintro ⟨rule, i⟩ -
    rw [List.pairwise_filterMap]
    refine (pairwise_zipIdx _).imp fun {a b} less x first y second => ?_
    obtain ⟨n, -, rfl⟩ := Option.map_eq_some_iff.1 first
    obtain ⟨m, -, rfl⟩ := Option.map_eq_some_iff.1 second
    exact .inr ⟨rfl, less⟩
  · refine (pairwise_zipIdx _).imp fun {a b} less x first y second => ?_
    obtain ⟨_, -, first⟩ := List.mem_filterMap.1 first
    obtain ⟨_, -, second⟩ := List.mem_filterMap.1 second
    obtain ⟨n, -, rfl⟩ := Option.map_eq_some_iff.1 first
    obtain ⟨m, -, rfl⟩ := Option.map_eq_some_iff.1 second
    exact .inl less

def Earliest (uses : List (Use × NonterminalId × Rule)) (e : Use × NonterminalId × Rule) : Prop :=
  e ∈ uses ∧ ∀ e' ∈ uses, e'.2.1 = e.2.1 → ¬ e'.1.Before e.1

section Uses

variable {e head : Use × NonterminalId × Rule} {rest uses : List (Use × NonterminalId × Rule)}
  (before : ∀ e ∈ rest, head.1.Before e.1)
include before

theorem earliest_head : Earliest (head :: rest) head := by
  refine ⟨List.mem_cons_self, fun e' member _ => ?_⟩
  rcases List.mem_cons.1 member with rfl | member
  · exact Use.not_before_self
  · exact Use.Before.asymm (before e' member)

/-- What comes behind is the first use of another nonterminal. -/
theorem earliest_cons (other : e ≠ head) :
    Earliest (head :: rest) e ↔ e.2.1 ≠ head.2.1 ∧ Earliest rest e := by
  constructor
  · rintro ⟨member, first⟩
    have inRest := (List.mem_cons.1 member).resolve_left other
    refine ⟨fun same => ?_, inRest, fun e' member => first e' (List.mem_cons_of_mem _ member)⟩
    exact first _ List.mem_cons_self same.symm (before e inRest)
  · rintro ⟨different, inRest, first⟩
    refine ⟨List.mem_cons_of_mem _ inRest, fun e' member same => ?_⟩
    rcases List.mem_cons.1 member with rfl | member
    · exact absurd same.symm different
    · exact first e' member same

end Uses

/-- Of uses in order, those are kept that are the first of a nonterminal not seen before. -/
theorem exists_firstUses {uses : List (Use × NonterminalId × Rule)}
    (ordered : uses.Pairwise (fun a b => a.1.Before b.1)) (seen : List NonterminalId) :
    ∃ kept : List (Use × NonterminalId × Rule), kept.Sublist uses ∧
      firstUses seen (uses.map Prod.snd) = kept.map Prod.snd ∧
      ∀ e, e ∈ kept ↔ Earliest uses e ∧ e.2.1 ∉ seen := by
  induction uses generalizing seen with
  | nil => exact ⟨[], .slnil, rfl, by simp [Earliest]⟩
  | cons head rest ih =>
    obtain ⟨before, others⟩ := List.pairwise_cons.1 ordered
    have fresh (e) (inRest : e ∈ rest) : e ≠ head := fun same =>
      Use.not_before_self (same ▸ before e inRest)
    rw [List.map_cons, firstUses, List.contains_eq_mem]
    by_cases old : head.2.1 ∈ seen
    · obtain ⟨kept, sub, same, mem⟩ := ih others seen
      refine ⟨kept, sub.cons _, by rw [if_pos (decide_eq_true old), same], fun e => ?_⟩
      rw [mem]
      constructor
      · rintro ⟨first, new⟩
        have different : e.2.1 ≠ head.2.1 := fun same => new (same ▸ old)
        exact ⟨(earliest_cons before (fresh e first.1)).2 ⟨different, first⟩, new⟩
      · rintro ⟨first, new⟩
        have other : e ≠ head := fun same => new (same ▸ old)
        exact ⟨((earliest_cons before other).1 first).2, new⟩
    · obtain ⟨kept, sub, same, mem⟩ := ih others (head.2.1 :: seen)
      refine ⟨head :: kept, sub.cons_cons _, ?_, fun e => ?_⟩
      · rw [if_neg (by simpa using old), same, List.map_cons]
      · rw [List.mem_cons, mem, List.mem_cons, not_or]
        constructor
        · rintro (rfl | ⟨first, different, new⟩)
          · exact ⟨earliest_head before, old⟩
          · exact ⟨(earliest_cons before (fresh e first.1)).2 ⟨different, first⟩, new⟩
        · rintro ⟨first, new⟩
          by_cases other : e = head
          · exact .inl other
          · obtain ⟨different, first⟩ := (earliest_cons before other).1 first
            exact .inr ⟨first, different, new⟩

/-- What occurs has a first occurrence. -/
theorem exists_earliest {uses : List (Use × NonterminalId × Rule)}
    (ordered : uses.Pairwise (fun a b => a.1.Before b.1)) {e : Use × NonterminalId × Rule}
    (member : e ∈ uses) : ∃ e', Earliest uses e' ∧ e'.2.1 = e.2.1 := by
  induction uses with
  | nil => cases member
  | cons head rest ih =>
    obtain ⟨before, others⟩ := List.pairwise_cons.1 ordered
    by_cases same : e.2.1 = head.2.1
    · exact ⟨head, earliest_head before, same.symm⟩
    · have inRest := (List.mem_cons.1 member).resolve_left fun eq => same (eq ▸ rfl)
      obtain ⟨e', first, eq⟩ := ih others inRest
      have other : e' ≠ head := fun eq' => same (eq ▸ eq' ▸ rfl)
      exact ⟨e', (earliest_cons before other).2 ⟨eq ▸ same, first⟩, eq⟩

theorem earliest_usesAt : Earliest (usesAt g) (u, n, rule) ↔ g.FirstUse u n rule := by
  constructor
  · rintro ⟨member, first⟩
    exact ⟨mem_usesAt.1 member, fun v rule' used => first (v, n, rule') (mem_usesAt.2 used) rfl⟩
  · rintro ⟨used, first⟩
    refine ⟨mem_usesAt.2 used, ?_⟩
    rintro ⟨v, m, rule'⟩ member rfl
    exact first v rule' (mem_usesAt.1 member)

theorem checkUndefined_reports (g : Grammar) : ReportsUndefined g (checkUndefined g) := by
  obtain ⟨kept, sub, same, mem⟩ := exists_firstUses (pairwise_usesAt (g := g))
    (g.rules.values.map (·.left)).eraseDups
  have listed : checkUndefined g = kept.map fun (_, n, rule) => undefinedSymbol g n rule := by
    rw [checkUndefined, ← map_usesAt, same, List.map_map]
    rfl
  have member (u : Use) (n : NonterminalId) (rule : Rule) :
      (u, n, rule) ∈ kept ↔ g.FirstUse u n rule ∧ ¬ g.HasRule n := by
    rw [mem, earliest_usesAt]
    simp only [List.mem_eraseDups, List.mem_map, Grammar.HasRule]
  have ordered := pairwise_usesAt.sublist sub
  constructor
  case named =>
    intro n
    rw [listed]
    constructor
    · rintro ⟨d, there, named⟩
      obtain ⟨⟨u, m, rule⟩, inKept, rfl⟩ := List.mem_map.1 there
      cases named
      obtain ⟨⟨⟨inRules, inRight⟩, -⟩, undefined⟩ := (member _ _ _).1 inKept
      refine ⟨⟨rule, List.mem_of_getElem? inRules, ?_⟩, undefined⟩
      exact Array.mem_toList_iff.2 (Array.mem_of_getElem? inRight)
    · rintro ⟨⟨rule, inRules, inRight⟩, undefined⟩
      obtain ⟨i, here⟩ := List.getElem?_of_mem inRules
      obtain ⟨j, there⟩ := List.getElem?_of_mem inRight
      rw [Array.getElem?_toList] at there
      have used : (⟨i, j⟩, n, rule) ∈ usesAt g := mem_usesAt.2 ⟨here, there⟩
      obtain ⟨⟨u, m, rule'⟩, first, rfl⟩ := exists_earliest pairwise_usesAt used
      exact ⟨_, List.mem_map_of_mem ((member _ _ _).2 ⟨earliest_usesAt.1 first, undefined⟩), rfl⟩
  case once =>
    rw [listed, List.map_map, List.Nodup, List.pairwise_map]
    refine ordered.imp_of_mem fun {a b} inKept inKept' before same => ?_
    have named : a.2.1 = b.2.1 := by simpa [undefinedSymbol] using same
    obtain ⟨⟨-, first⟩, -⟩ := (mem b).1 inKept'
    exact first a (sub.subset inKept) named before
  case ordered => exact ⟨kept, ordered, member, listed⟩
  case severity =>
    intro d there
    rw [listed] at there
    obtain ⟨e, -, rfl⟩ := List.mem_map.1 there
    rfl

theorem checkUnreachable_reports (wf : g.WellFormed) (known : g.start = some start) :
    ReportsUnreachableFrom g start (checkUnreachable g) := by
  refine ⟨g.nonterminals.keys.filter fun n => !(reachable g start).contains n,
    List.filter_sublist, g.nonterminals.keys_nodup.filter _, fun n => ?_, ?_, ?_⟩
  · simp only [List.mem_filter, Bool.not_eq_true', List.contains_eq_mem, decide_eq_false_iff_not,
      mem_reachable wf known, not_or, Grammar.reachable_iff known]
  · rw [checkUnreachable, known]
    rfl
  · intro d there
    rw [checkUnreachable, known] at there
    obtain ⟨n, -, rfl⟩ := List.mem_map.1 there
    rfl

/-- The checks find exactly what is wrong: one error about a start symbol that is missing or has
no rules, one error for each nonterminal that is used without rules, and one warning for each that
the start symbol does not lead to. -/
theorem findings_exact (defined : g.Defined) :
    (Startless g → ∃ d, checkStart g = [d] ∧ d.kind = .malformedGrammar ∧ d.severity = .error ∧
      d.symbol = g.start.map Symbol.nonterminal) ∧
    (¬ Startless g → checkStart g = []) ∧
    ReportsUndefined g (checkUndefined g) ∧
    (g.start = none → checkUnreachable g = []) ∧
    ∀ start, g.start = some start → ReportsUnreachableFrom g start (checkUnreachable g) := by
  refine ⟨checkStart_of_startless, checkStart_of_not_startless, checkUndefined_reports g,
    fun unknown => ?_, fun start known => checkUnreachable_reports defined.wellFormed known⟩
  rw [checkUnreachable, unknown]

/-- `S := a X Y X` and `U := Y Z`, where `X`, `Y` and `Z` have no rules and nothing leads from `S`
to `U`. -/
def looseEnds : List Declaration :=
  [.terminal "a" none, .nonterminal "U", .nonterminal "S", .nonterminal "X", .nonterminal "Y",
    .nonterminal "Z",
    .rule ⟨2⟩ [.terminal ⟨3⟩, .nonterminal ⟨3⟩, .nonterminal ⟨4⟩, .nonterminal ⟨3⟩] none,
    .rule ⟨1⟩ [.nonterminal ⟨4⟩, .nonterminal ⟨5⟩] none]

theorem findings_exact_looseEnds : ∃ g, Grammar.define looseEnds = .ok g ∧ checkStart g = [] ∧
    ReportsUndefined g (checkUndefined g) ∧
    (checkUndefined g).map (fun d => (d.symbol, d.rule)) =
      [(some (.nonterminal ⟨3⟩), some ⟨1⟩), (some (.nonterminal ⟨4⟩), some ⟨1⟩),
        (some (.nonterminal ⟨5⟩), some ⟨2⟩)] ∧
    ReportsUnreachableFrom g ⟨2⟩ (checkUnreachable g) ∧
    (checkUnreachable g).map Diagnostic.symbol =
      [some (.nonterminal ⟨1⟩), some (.nonterminal ⟨5⟩)] := by
  obtain ⟨g, defined⟩ : ∃ g, Grammar.define looseEnds = .ok g := ⟨_, rfl⟩
  have start : g.start = some ⟨2⟩ := by cases defined; rfl
  have hasRule : g.HasRule ⟨2⟩ := by
    cases defined
    exact ⟨_, List.mem_cons_of_mem _ List.mem_cons_self, rfl⟩
  obtain ⟨-, silent, undefined, -, unreachable⟩ := findings_exact (.steps defined (by decide))
  refine ⟨g, defined, silent fun startless => startless _ start hasRule, undefined, ?_,
    unreachable _ start, ?_⟩
  · cases defined
    decide +kernel
  · cases defined
    decide +kernel

end Integrity
end Lalr
