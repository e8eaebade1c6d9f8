import Lalr.Proofs.Lexer.Thompson
import Mathlib.Data.List.Induction
import Mathlib.Data.List.Nodup

/-! The automaton of several tokens. The start states lead to the accepting state of a token by
exactly the words that its pattern matches, and accepting states are ordered as the tokens are. -/
namespace Lalr.Lexer.Nfa

open Pattern

variable {nfa nfa' : Nfa} {f : Fragment} {a : TokenAccept} {i j : Nat}
  {tokens : List TokenPattern} {t : TokenPattern} {w : List UInt8}

/-- The automaton of the tokens, added in order. Those whose patterns are not well formed are
left out. -/
def ofTokens (tokens : List TokenPattern) : Nfa :=
  tokens.foldl (fun nfa t =>
    match nfa.compile t with
    | .ok (_, nfa') => nfa'
    | .error _ => nfa) .empty

structure Compiled where
  position : Nat
  token : TokenPattern
  pattern : Pattern
  fragment : Fragment

def Compiled.accept (e : Compiled) : TokenAccept := ⟨e.token.terminal, e.token.priority⟩

section AddToken

theorem size_addToken : (nfa.addToken f a).states.size = nfa.states.size := by
  simp [addToken]

theorem state_addToken (small : f.accept < nfa.states.size) (i : Nat) :
    (nfa.addToken f a).state i =
      if i = f.accept then { nfa.state i with accept := some a } else nfa.state i := by
  simp only [state, addToken, Array.getElem?_modify, eq_comm (a := f.accept)]
  split
  · next same => rw [same, Array.getElem?_eq_getElem small]; rfl
  · rfl

theorem edges_addToken (small : f.accept < nfa.states.size) (i : Nat) :
    ((nfa.addToken f a).state i).edges = (nfa.state i).edges ∧
      ((nfa.addToken f a).state i).epsilons = (nfa.state i).epsilons := by
  rw [state_addToken small]
  split <;> exact ⟨rfl, rfl⟩

theorem within_addToken (small : f.accept < nfa.states.size) :
    nfa.Within (nfa.addToken f a) := by
  intro i
  obtain ⟨edges, epsilons⟩ := edges_addToken (a := a) small i
  rw [edges, epsilons]
  exact Within.refl nfa i

theorem Bounded.addToken (h : nfa.Bounded) (small : f.accept < nfa.states.size) :
    (nfa.addToken f a).Bounded := by
  intro i
  obtain ⟨edges, epsilons⟩ := edges_addToken (a := a) small i
  rw [edges, epsilons, size_addToken]
  exact h i

theorem Respects.addToken {V : Nat → Language UInt8} (h : nfa.Respects V i)
    (small : f.accept < nfa.states.size) : (nfa.addToken f a).Respects V i := by
  obtain ⟨edges, epsilons⟩ := edges_addToken (a := a) small i
  exact ⟨fun k edge => h.epsilon k (epsilons ▸ edge), fun l k edge => h.edge l k (edges ▸ edge)⟩

end AddToken

/-- The automaton has the tokens of the entries side by side. -/
structure Holds (tokens : List TokenPattern) (nfa : Nfa) (entries : List Compiled) : Prop where
  bounded : nfa.Bounded
  starts : nfa.starts = entries.map (·.fragment.start)
  place : ∀ e ∈ entries, e.fragment.start < nfa.states.size ∧ e.fragment.accept < nfa.states.size
  accepts : ∀ i a, (nfa.state i).accept = some a ↔
    ∃ e ∈ entries, e.fragment.accept = i ∧ e.accept = a
  positions : (entries.map (·.position)).Nodup
  ordered : ∀ e ∈ entries, ∀ e' ∈ entries, e.position < e'.position →
    e.fragment.accept < e'.fragment.accept
  complete : ∀ e ∈ entries, ∀ w ∈ e.pattern.language,
    nfa.Path e.fragment.start w e.fragment.accept
  sound : ∀ K : Nat → Language UInt8, ∃ V : Nat → Language UInt8, (∀ i, nfa.Respects V i) ∧
    ∀ e ∈ entries, V e.fragment.accept = K e.position ∧
      V e.fragment.start = e.pattern.language * K e.position
  listed : ∀ k t p, tokens[k]? = some t ∧ Pattern.parse t.pattern = .ok p ↔
    ∃ e ∈ entries, e.position = k ∧ e.token = t ∧ e.pattern = p

theorem holds_empty : Holds [] .empty [] where
  bounded i := by simp [state, empty]
  starts := rfl
  place := by simp
  accepts i a := by simp [state, empty]
  positions := .nil
  ordered := by simp
  complete := by simp
  sound K := ⟨fun _ => 0, fun i => respects_of_empty rfl, by simp⟩
  listed := by simp

/-- The tokens that are listed, with one more at the end. -/
theorem getElem?_concat_eq_some {k : Nat} {u : TokenPattern} :
    (tokens ++ [t])[k]? = some u ↔ tokens[k]? = some u ∨ tokens.length = k ∧ t = u := by
  rw [List.getElem?_append]
  split
  · next old => exact (or_iff_left fun last => Nat.ne_of_gt old last.1).symm
  · next le =>
    have none : tokens[k]? = none := List.getElem?_eq_none (Nat.le_of_not_lt le)
    rw [none, or_iff_right nofun]
    constructor
    · intro there
      obtain ⟨last, rfl⟩ := List.getElem?_eq_some_iff.1 there
      rw [List.length_singleton] at last
      exact ⟨by omega, by simp⟩
    · rintro ⟨rfl, rfl⟩
      simp

/-- A token whose pattern is not well formed adds nothing. -/
theorem Holds.skip {entries : List Compiled} (h : Holds tokens nfa entries) {e : PatternError}
    (fails : Pattern.parse t.pattern = .error e) : Holds (tokens ++ [t]) nfa entries := by
  refine { h with listed := fun k u p => ?_ }
  rw [← h.listed]
  apply and_congr_left
  intro parsed
  rw [getElem?_concat_eq_some]
  apply or_iff_left
  rintro ⟨-, rfl⟩
  cases fails.symm.trans parsed

/-- Tokens have positions in the list. -/
theorem Holds.position_lt {entries : List Compiled} (h : Holds tokens nfa entries)
    {e : Compiled} (member : e ∈ entries) : e.position < tokens.length := by
  have listed := ((h.listed _ _ _).2 ⟨e, member, rfl, rfl, rfl⟩).1
  exact (List.getElem?_eq_some_iff.1 listed).1

/-- The exit of a new fragment accepts the new token, and other states accept what they accepted. -/
theorem Holds.accepts_addToken {entries : List Compiled} (h : Holds tokens nfa entries)
    {p : Pattern} (builds : Builds nfa nfa' f p.language) (k : Nat) (i : Nat) (a : TokenAccept) :
    ((nfa'.addToken f ⟨t.terminal, t.priority⟩).state i).accept = some a ↔
      ∃ e ∈ entries ++ [⟨k, t, p, f⟩], e.fragment.accept = i ∧ e.accept = a := by
  rw [state_addToken builds.accept.2]
  simp only [List.mem_append, List.mem_singleton, or_and_right, exists_or, exists_eq_left]
  by_cases here : i = f.accept
  · -- No older token accepts in the new state.
    have none : ¬ ∃ e ∈ entries, e.fragment.accept = i ∧ e.accept = a := by
      rintro ⟨e, member, same, -⟩
      have := (h.place e member).2
      have := builds.accept.1
      omega
    rw [if_pos here, or_iff_right none]
    simp [here, Compiled.accept]
  · have same : (nfa'.state i).accept = (nfa.state i).accept := by
      by_cases old : i < nfa.states.size
      · rw [builds.state i old]
      · simp only [builds.idle i (Nat.le_of_not_lt old), state_of_le (Nat.le_of_not_lt old)]
    rw [if_neg here, same, h.accepts]
    exact (or_iff_left fun new => here new.1.symm).symm

theorem Holds.add {entries : List Compiled} (h : Holds tokens nfa entries) {p : Pattern}
    (parsed : Pattern.parse t.pattern = .ok p) :
    Holds (tokens ++ [t])
      ((nfa.addPattern p).2.addToken (nfa.addPattern p).1 ⟨t.terminal, t.priority⟩)
      (entries ++ [⟨tokens.length, t, p, (nfa.addPattern p).1⟩]) := by
  have builds := builds_addPattern p nfa
  generalize (nfa.addPattern p).1 = f at *
  generalize (nfa.addPattern p).2 = nfa' at *
  have small := builds.accept.2
  have size := builds.size
  constructor
  case bounded => exact (builds.bounded h.bounded).addToken small
  case starts =>
    rw [addToken, builds.starts, h.starts, List.map_append]
    rfl
  case place =>
    intro e member
    rw [size_addToken]
    rcases List.mem_append.1 member with old | new
    · have := h.place e old
      omega
    · cases List.mem_singleton.1 new
      exact ⟨builds.start.2, small⟩
  case accepts => exact h.accepts_addToken builds tokens.length
  case positions =>
    rw [List.map_append, List.nodup_append]
    refine ⟨h.positions, List.nodup_singleton _, fun k old k' new => ?_⟩
    obtain ⟨e, member, rfl⟩ := List.mem_map.1 old
    rw [List.mem_singleton.1 new]
    exact Nat.ne_of_lt (h.position_lt member)
  case ordered =>
    intro e member e' member' less
    rcases List.mem_append.1 member with old | new
    · rcases List.mem_append.1 member' with old' | new'
      · exact h.ordered e old e' old' less
      · cases List.mem_singleton.1 new'
        exact Nat.lt_of_lt_of_le (h.place e old).2 builds.accept.1
    · cases List.mem_singleton.1 new
      rcases List.mem_append.1 member' with old' | new'
      · exact absurd (h.position_lt old') (Nat.lt_asymm less)
      · cases List.mem_singleton.1 new'
        exact absurd less (Nat.lt_irrefl _)
  case complete =>
    intro e member w inLanguage
    refine Path.mono ?_ (within_addToken small)
    rcases List.mem_append.1 member with old | new
    · exact (h.complete e old w inLanguage).mono builds.within
    · cases List.mem_singleton.1 new
      exact builds.complete w inLanguage
  case sound =>
    intro K
    obtain ⟨V, respects, values⟩ := h.sound K
    obtain ⟨V', frame, atAccept, atStart, respects'⟩ := builds.sound V (K tokens.length)
    refine ⟨V', fun i => ?_, fun e member => ?_⟩
    · refine Respects.addToken ?_ small
      by_cases old : i < nfa.states.size
      · exact (respects i).extend (h.bounded.leadsInto i) old (builds.state i old) frame
      · exact respects' i (Nat.le_of_not_lt old)
    · rcases List.mem_append.1 member with old | new
      · obtain ⟨startLt, acceptLt⟩ := h.place e old
        rw [frame _ startLt, frame _ acceptLt]
        exact values e old
      · cases List.mem_singleton.1 new
        exact ⟨atAccept, atStart⟩
  case listed =>
    intro k u q
    simp only [List.mem_append, List.mem_singleton, or_and_right, exists_or, exists_eq_left]
    rw [← h.listed, getElem?_concat_eq_some, or_and_right]
    refine or_congr_right ⟨?_, ?_⟩
    · rintro ⟨⟨rfl, rfl⟩, parsed'⟩
      cases parsed.symm.trans parsed'
      exact ⟨rfl, rfl, rfl⟩
    · rintro ⟨rfl, rfl, rfl⟩
      exact ⟨⟨rfl, rfl⟩, parsed⟩

theorem ofTokens_concat (tokens : List TokenPattern) (t : TokenPattern) :
    ofTokens (tokens ++ [t]) = match (ofTokens tokens).compile t with
      | .ok (_, nfa') => nfa'
      | .error _ => ofTokens tokens := by
  rw [ofTokens, List.foldl_append, List.foldl_cons, List.foldl_nil]
  rfl

/-- Every list of tokens has its automaton. -/
theorem exists_holds (tokens : List TokenPattern) :
    ∃ entries, Holds tokens (ofTokens tokens) entries := by
  induction tokens using List.reverseRecOn with
  | nil => exact ⟨[], holds_empty⟩
  | append_singleton tokens t ih =>
    obtain ⟨entries, h⟩ := ih
    rw [ofTokens_concat, compile]
    cases parsed : Pattern.parse t.pattern with
    | error e => exact ⟨entries, h.skip parsed⟩
    | ok p => exact ⟨_, h.add parsed⟩

theorem Holds.start_lt {entries : List Compiled} (h : Holds tokens nfa entries) :
    ∀ i ∈ nfa.starts, i < nfa.states.size := by
  intro i start
  rw [h.starts] at start
  obtain ⟨e, member, rfl⟩ := List.mem_map.1 start
  exact (h.place e member).1

/-- A word leads from a start state to an accepting one by the pattern of the token that is
accepted there. -/
theorem Holds.path_iff {entries : List Compiled} (h : Holds tokens nfa entries) :
    (∃ i ∈ nfa.starts, nfa.Path i w j) ∧ (nfa.state j).accept = some a ↔
      ∃ e ∈ entries, e.fragment.accept = j ∧ e.accept = a ∧ w ∈ e.pattern.language := by
  constructor
  · rintro ⟨⟨i, start, path⟩, accepts⟩
    obtain ⟨e', member', rfl, recognized⟩ := (h.accepts j a).1 accepts
    rw [h.starts] at start
    obtain ⟨e, member, rfl⟩ := List.mem_map.1 start
    -- Let only this accepting state have anything behind it, the empty word.
    obtain ⟨V, respects, values⟩ := h.sound fun k => if k = e'.position then 1 else 0
    have behind : [] ∈ V e'.fragment.accept := by
      rw [(values e' member').1, if_pos rfl]
      rfl
    have read : w ∈ V e.fragment.start := by
      simpa using path.append_mem respects behind
    rw [(values e member).2] at read
    by_cases same : e.position = e'.position
    · obtain rfl := List.inj_on_of_nodup_map h.positions member member' same
      rw [if_pos rfl, mul_one] at read
      exact ⟨e, member, rfl, recognized, read⟩
    · rw [if_neg same, mul_zero] at read
      exact (Language.notMem_zero w read).elim
  · rintro ⟨e, member, rfl, rfl, inLanguage⟩
    refine ⟨⟨e.fragment.start, ?_, h.complete e member w inLanguage⟩,
      (h.accepts _ _).2 ⟨e, member, rfl, rfl⟩⟩
    rw [h.starts]
    exact List.mem_map.2 ⟨e, member, rfl⟩

theorem Holds.matches_iff {entries : List Compiled} (h : Holds tokens nfa entries) {k : Nat} :
    Matches tokens w k t ↔
      ∃ e ∈ entries, e.position = k ∧ e.token = t ∧ w ∈ e.pattern.language := by
  constructor
  · rintro ⟨listed, p, parsed, inLanguage⟩
    obtain ⟨e, member, position, token, rfl⟩ := (h.listed k t p).1 ⟨listed, parsed⟩
    exact ⟨e, member, position, token, inLanguage⟩
  · rintro ⟨e, member, rfl, rfl, inLanguage⟩
    obtain ⟨listed, parsed⟩ := (h.listed _ _ _).2 ⟨e, member, rfl, rfl, rfl⟩
    exact ⟨listed, e.pattern, parsed, inLanguage⟩

/-- The preferred token has the least priority, and those before it have greater ones. -/
theorem foldl_prefer (x : TokenAccept) (l : List TokenAccept) : ∃ a front back,
    l.foldl prefer (some x) = some a ∧ x :: l = front ++ a :: back ∧
      (∀ b ∈ front, a.priority < b.priority) ∧ ∀ b ∈ back, a.priority ≤ b.priority := by
  induction l generalizing x with
  | nil => exact ⟨x, [], [], rfl, rfl, by simp, by simp⟩
  | cons y rest ih =>
    by_cases less : y.priority < x.priority
    · obtain ⟨a, front, back, result, split, before, behind⟩ := ih y
      have le : a.priority ≤ y.priority := by
        cases front with
        | nil => exact Nat.le_of_eq (congrArg _ (List.cons_eq_cons.1 split).1.symm)
        | cons z front =>
          rw [(List.cons_eq_cons.1 split).1]
          exact Nat.le_of_lt (before z List.mem_cons_self)
      refine ⟨a, x :: front, back, ?_, by rw [split]; rfl, ?_, behind⟩
      · simp only [List.foldl_cons, prefer, if_pos less, result]
      · exact List.forall_mem_cons.2 ⟨Nat.lt_of_le_of_lt le less, before⟩
    · obtain ⟨a, front, back, result, split, before, behind⟩ := ih x
      have result : (y :: rest).foldl prefer (some x) = some a := by
        simp only [List.foldl_cons, prefer, if_neg less, result]
      cases front with
      | nil =>
        obtain ⟨rfl, rfl⟩ := List.cons_eq_cons.1 split
        exact ⟨x, [], y :: rest, result, rfl, by simp,
          List.forall_mem_cons.2 ⟨Nat.le_of_not_lt less, behind⟩⟩
      | cons z front =>
        obtain ⟨rfl, rfl⟩ := List.cons_eq_cons.1 split
        obtain ⟨here, others⟩ := List.forall_mem_cons.1 before
        refine ⟨a, x :: y :: front, back, result, rfl, ?_, behind⟩
        exact List.forall_mem_cons.2 ⟨here, List.forall_mem_cons.2 ⟨by omega, others⟩⟩

/-- Among ascending states the accepting one of least priority, and of these the first, is
resolved. -/
theorem resolveAccept_spec {states : List Nat} (sorted : states.Pairwise (· < ·))
    (h : nfa.resolveAccept states = some a) : ∃ j ∈ states, (nfa.state j).accept = some a ∧
      ∀ j' ∈ states, ∀ b, (nfa.state j').accept = some b →
        a.priority < b.priority ∨ a.priority = b.priority ∧ j ≤ j' := by
  unfold resolveAccept at h
  cases found : states.filterMap fun i => (nfa.state i).accept with
  | nil =>
    rw [found] at h
    cases h
  | cons x l =>
    obtain ⟨c, front, back, result, split, before, behind⟩ := foldl_prefer x l
    have same : c = a := by
      rw [found] at h
      exact Option.some.inj (result.symm.trans h)
    subst same
    rw [split] at found
    obtain ⟨s₁, s₂, rfl, rfl, rest⟩ := List.filterMap_eq_append_iff.1 found
    obtain ⟨idle, j, s₃, rfl, none, accepts, rfl⟩ := List.filterMap_eq_cons_iff.1 rest
    refine ⟨j, by simp, accepts, fun j' member b accepts' => ?_⟩
    simp only [List.mem_append, List.mem_cons] at member
    rcases member with first | inIdle | rfl | last
    · exact .inl (before b (List.mem_filterMap.2 ⟨j', first, accepts'⟩))
    · rw [none j' inIdle] at accepts'
      cases accepts'
    · cases accepts.symm.trans accepts'
      exact .inr ⟨rfl, Nat.le_refl _⟩
    · have le := behind b (List.mem_filterMap.2 ⟨j', last, accepts'⟩)
      have tail := (List.pairwise_append.1 (List.pairwise_append.1 sorted).2.1).2.1
      have less := (List.pairwise_cons.1 tail).1 j' last
      exact (Nat.lt_or_eq_of_le le).imp_right fun same => ⟨same, Nat.le_of_lt less⟩

theorem exists_resolveAccept {states : List Nat} (member : j ∈ states)
    (accepts : (nfa.state j).accept = some a) : ∃ b, nfa.resolveAccept states = some b := by
  have inList : a ∈ states.filterMap fun i => (nfa.state i).accept :=
    List.mem_filterMap.2 ⟨j, member, accepts⟩
  unfold resolveAccept
  cases found : states.filterMap fun i => (nfa.state i).accept with
  | nil => simp [found] at inList
  | cons x l =>
    obtain ⟨b, -, -, result, -⟩ := foldl_prefer x l
    exact ⟨b, result⟩

/-- The token of least priority and position is the one that is resolved. -/
theorem Holds.resolve {entries : List Compiled} (h : Holds tokens nfa entries)
    {states : List Nat} (sorted : states.Pairwise (· < ·))
    (reached : ∀ j, j ∈ states ↔ ∃ i ∈ nfa.starts, nfa.Path i w j) {terminal : TerminalId} :
    (nfa.resolveAccept states).map (·.terminal) = some terminal ↔ Wins tokens w terminal := by
  have wins {a : TokenAccept} (resolved : nfa.resolveAccept states = some a) :
      Wins tokens w a.terminal := by
    obtain ⟨j, member, accepts, least⟩ := resolveAccept_spec sorted resolved
    obtain ⟨e, inEntries, rfl, rfl, inLanguage⟩ := h.path_iff.1 ⟨(reached j).1 member, accepts⟩
    refine ⟨e.position, e.token, h.matches_iff.2 ⟨e, inEntries, rfl, rfl, inLanguage⟩, rfl, ?_⟩
    intro k' t' matched
    obtain ⟨e', inEntries', rfl, rfl, inLanguage'⟩ := h.matches_iff.1 matched
    obtain ⟨path, accepts'⟩ := h.path_iff.2 ⟨e', inEntries', rfl, rfl, inLanguage'⟩
    refine (least _ ((reached _).2 path) _ accepts').imp_right fun ⟨same, le⟩ => ⟨same, ?_⟩
    exact Nat.le_of_not_lt fun less => Nat.not_lt_of_le le (h.ordered _ inEntries' _ inEntries less)
  constructor
  · intro resolved
    obtain ⟨a, found, rfl⟩ := Option.map_eq_some_iff.1 resolved
    exact wins found
  · intro won
    obtain ⟨k, t, matched, -⟩ := id won
    obtain ⟨e, inEntries, -, -, inLanguage⟩ := h.matches_iff.1 matched
    obtain ⟨path, accepts⟩ := h.path_iff.2 ⟨e, inEntries, rfl, rfl, inLanguage⟩
    obtain ⟨b, resolved⟩ := exists_resolveAccept ((reached _).2 path) accepts
    simp only [resolved, Option.map_some, (wins resolved).unique won]

end Lalr.Lexer.Nfa
