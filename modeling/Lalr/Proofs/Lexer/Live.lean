import Lalr.Proofs.Lexer.Fragments
import Lalr.Proofs.Lexer.Parsing

/-! No dead ends. A text spells only patterns that leave a byte to every step and a branch to every
choice, and in the fragment of such a pattern every state leads to the exit. -/
namespace Lalr.Lexer

open Spelling

namespace Pattern

/-- No set of bytes and no choice in the pattern is empty. -/
inductive Live : Pattern → Prop where
  | bytes {set : ByteSet} : set.members.Nonempty → Live (.bytes set)
  | cat {parts : List Pattern} : (∀ p ∈ parts, Live p) → Live (.cat parts)
  | alt {branches : List Pattern} : branches ≠ [] → (∀ p ∈ branches, Live p) → Live (.alt branches)
  | star {body : Pattern} : Live body → Live (.star body)
  | plus {body : Pattern} : Live body → Live (.plus body)
  | opt {body : Pattern} : Live body → Live (.opt body)

variable {w : List Char} {p : Pattern}

theorem live_byte (b : UInt8) : (byte b).Live := .bytes (by simp)

theorem live_concat {parts : List Pattern} (live : ∀ p ∈ parts, p.Live) : (concat parts).Live := by
  unfold concat
  split
  · exact live _ List.mem_cons_self
  · exact .cat live

theorem live_choice {branches : List Pattern} (some : branches ≠ [])
    (live : ∀ p ∈ branches, p.Live) : (choice branches).Live := by
  unfold choice
  split
  · exact live _ List.mem_cons_self
  · exact .alt some live

theorem live_literal (c : Char) : (literal c).Live := by
  apply live_concat
  intro p member
  obtain ⟨b, -, rfl⟩ := List.mem_map.1 member
  exact live_byte b

theorem Live.repetition (h : p.Live) (r : Repetition) : (r.apply p).Live := by
  cases r with
  | star => exact .star h
  | plus => exact .plus h
  | opt => exact .opt h

end Pattern

namespace Spelling

variable {w : List Char} {p : Pattern}

theorem nonempty_of_shorthand {c : Char} {S : Set UInt8} (named : shorthand c = some S) :
    S.Nonempty := by
  unfold shorthand at named
  split at named
  case h_7 => cases named
  all_goals rw [← Option.some.inj named]
  case h_1 => exact ⟨48, by decide, by decide⟩
  case h_2 => exact ⟨0, fun inside => absurd inside.1 (by decide)⟩
  case h_3 => exact ⟨95, .inr rfl⟩
  case h_4 => exact ⟨0, by simp [wordBytes, span]⟩
  case h_5 => exact ⟨32, .inl rfl⟩
  case h_6 => exact ⟨0, by simp [spaces, span]⟩

theorem Leaf.live (h : Leaf w p) : p.Live := by
  cases h with
  | plain | char => exact Pattern.live_literal _
  | byte => exact Pattern.live_byte _
  | dot eq => exact .bytes ⟨0, by simp [eq]⟩
  | bracket _ filled => exact .bytes filled
  | set spelled =>
    cases spelled with
    | set named => exact .bytes (nonempty_of_shorthand named)

mutual

theorem Branches.live : ∀ {w bs}, Branches w bs → bs ≠ [] ∧ ∀ p ∈ bs, p.Live
  | _, _, .one parts => by simpa using Pattern.live_concat parts.live
  | _, _, .more before parts => by
    simpa [or_imp, forall_and] using ⟨before.live.2, Pattern.live_concat parts.live⟩

theorem Parts.live : ∀ {w parts}, Parts w parts → ∀ p ∈ parts, p.Live
  | _, _, .one spelled => by simpa using spelled.live
  | _, _, .more before spelled => by
    simpa [or_imp, forall_and] using ⟨before.live, spelled.live⟩

theorem Repeated.live : ∀ {w p}, Repeated w p → p.Live
  | _, _, .atom spelled => spelled.live
  | _, _, .operator r spelled => spelled.live.repetition r

theorem Atom.live : ∀ {w p}, Atom w p → p.Live
  | _, _, .leaf spelled => spelled.live
  | _, _, .group branches => Pattern.live_choice branches.live.1 branches.live.2

end

end Spelling

theorem Pattern.live_of_parse {source : String} {p : Pattern}
    (parsed : Pattern.parse source = .ok p) : p.Live := by
  obtain ⟨branches, spelled, rfl⟩ := spells_of_parse parsed
  exact live_choice spelled.live.1 spelled.live.2

namespace Nfa

open Pattern

variable {nfa nfa' nfa'' : Nfa} {f g : Fragment} {i j n : Nat} {L : Language UInt8}
  {p : Pattern} {w : List UInt8}

def Drains (nfa : Nfa) (n j : Nat) : Prop := ∀ i, n ≤ i → i < nfa.states.size → ∃ w, nfa.Path i w j

/-- New ends are the only new states. -/
theorem start_or_accept_of_new (new : nfa.states.size ≤ i)
    (small : i < nfa.addEnds.2.states.size) :
    i = nfa.addEnds.1.start ∨ i = nfa.addEnds.1.accept := by
  rw [size_addEnds] at small
  rw [start_addEnds, accept_addEnds]
  omega

theorem drains_bytes {set : ByteSet} (filled : set.members.Nonempty) (nfa : Nfa) :
    (nfa.addEnds.2.addEdge nfa.addEnds.1.start set nfa.addEnds.1.accept).Drains nfa.states.size
      nfa.addEnds.1.accept := by
  intro i new small
  obtain ⟨b, member⟩ := filled
  have startLt : nfa.addEnds.1.start < nfa.addEnds.2.states.size := (place_addEnds nfa).1.2
  rw [size_addEdge] at small
  rcases start_or_accept_of_new new small with rfl | rfl
  · exact ⟨[b], path_addEdge startLt member⟩
  · exact ⟨[], .refl _⟩

theorem drains_skip (nfa : Nfa) :
    (nfa.addEnds.2.addEpsilon nfa.addEnds.1.start nfa.addEnds.1.accept).Drains nfa.states.size
      nfa.addEnds.1.accept := by
  intro i new small
  have startLt : nfa.addEnds.1.start < nfa.addEnds.2.states.size := (place_addEnds nfa).1.2
  rw [size_addEpsilon] at small
  rcases start_or_accept_of_new new small with rfl | rfl
  · exact ⟨[], path_addEpsilon startLt⟩
  · exact ⟨[], .refl _⟩

/-- New ends around a fragment, tied to it by epsilon edges. -/
theorem Drains.around (inner : nfa'.Drains nfa.addEnds.2.states.size g.accept)
    (h : Builds nfa.addEnds.2 nfa' g L) (within : nfa'.Within nfa'')
    (size : nfa''.states.size = nfa'.states.size)
    (enter : nfa''.Path nfa.addEnds.1.start [] g.start)
    (leave : nfa''.Path g.accept [] nfa.addEnds.1.accept) :
    nfa''.Drains nfa.states.size nfa.addEnds.1.accept := by
  have behind (i : Nat) (new : nfa.addEnds.2.states.size ≤ i) (small : i < nfa'.states.size) :
      ∃ w, nfa''.Path i w nfa.addEnds.1.accept := by
    obtain ⟨w, path⟩ := inner i new small
    exact ⟨_, (path.mono within).trans leave⟩
  intro i new small
  by_cases outer : i < nfa.addEnds.2.states.size
  · rcases start_or_accept_of_new new outer with rfl | rfl
    · obtain ⟨w, path⟩ := behind g.start h.start.1 h.start.2
      exact ⟨_, enter.trans path⟩
    · exact ⟨[], .refl _⟩
  · exact behind i (Nat.le_of_not_lt outer) (size ▸ small)

def loops (f g : Fragment) : Repetition → List (Nat × Nat)
  | .star => [(f.start, g.start), (f.start, f.accept), (g.accept, g.start), (g.accept, f.accept)]
  | .plus => [(f.start, g.start), (g.accept, g.start), (g.accept, f.accept)]
  | .opt => [(f.start, g.start), (f.start, f.accept), (g.accept, f.accept)]

theorem Drains.repetition (r : Repetition) (inner : nfa'.Drains nfa.addEnds.2.states.size g.accept)
    (h : Builds nfa.addEnds.2 nfa' g L) :
    (nfa'.addEpsilons (loops nfa.addEnds.1 g r)).Drains nfa.states.size nfa.addEnds.1.accept := by
  have sources : ∀ e ∈ loops nfa.addEnds.1 g r, e.1 = nfa.addEnds.1.start ∨ e.1 = g.accept := by
    cases r <;> simp [loops]
  have enter : (nfa.addEnds.1.start, g.start) ∈ loops nfa.addEnds.1 g r := by
    cases r <;> simp [loops]
  have leave : (g.accept, nfa.addEnds.1.accept) ∈ loops nfa.addEnds.1 g r := by
    cases r <;> simp [loops]
  have small : ∀ e ∈ loops nfa.addEnds.1 g r, e.1 < nfa'.states.size := by
    intro e member
    rcases sources e member with eq | eq
    · have := (place_addEnds nfa).1.2
      have := h.size
      omega
    · exact eq ▸ h.accept.2
  exact inner.around h (within_addEpsilons small) size_addEpsilons (path_addEpsilons small enter)
    (path_addEpsilons small leave)

/-- A branch tied to ends that exist already. -/
theorem Drains.branch {ends : Fragment} (inner : nfa'.Drains nfa.states.size f.accept)
    (h : Builds nfa nfa' f L) (start : ends.start < nfa.states.size)
    (within : ((nfa'.addEpsilon ends.start f.start).addEpsilon f.accept ends.accept).Within nfa'') :
    (∃ w, nfa''.Path ends.start w ends.accept) ∧
      ∀ i, nfa.states.size ≤ i → i < nfa'.states.size → ∃ w, nfa''.Path i w ends.accept := by
  have small : ∀ e ∈ [(ends.start, f.start), (f.accept, ends.accept)], e.1 < nfa'.states.size := by
    simp only [List.forall_mem_cons]
    exact ⟨Nat.lt_of_lt_of_le start h.size, h.accept.2, by simp⟩
  have enter : nfa''.Path ends.start [] f.start := (path_addEpsilons small (by simp)).mono within
  have leave : nfa''.Path f.accept [] ends.accept := (path_addEpsilons small (by simp)).mono within
  have behind (i : Nat) (new : nfa.states.size ≤ i) (small' : i < nfa'.states.size) :
      ∃ w, nfa''.Path i w ends.accept := by
    obtain ⟨w, path⟩ := inner i new small'
    exact ⟨_, (path.mono ((within_addEpsilons small).trans within)).trans leave⟩
  obtain ⟨w, path⟩ := behind f.start h.start.1 h.start.2
  exact ⟨⟨_, enter.trans path⟩, behind⟩

mutual

/-- In the fragment of a live pattern every state leads to the exit. -/
theorem drains_addPattern : (p : Pattern) → p.Live → (nfa : Nfa) →
    (nfa.addPattern p).2.Drains nfa.states.size (nfa.addPattern p).1.accept
  | .bytes set, .bytes filled, nfa => drains_bytes filled nfa
  | .cat parts, .cat live, nfa => by
    have all := buildsAll_addPatterns parts nfa
    have drains := drains_addPatterns parts live nfa
    rw [addPattern]
    dsimp only
    rw [chain_eq]
    have small : ∀ e ∈ links (nfa.addPatterns parts).1,
        e.1 < (nfa.addPatterns parts).2.states.size := by
      intro e member
      obtain ⟨⟨f, inList, source⟩, -⟩ := mem_links member
      exact source ▸ (all.place f inList).2.2
    have drains := drains _ (within_addEpsilons small) fun e member =>
      path_addEpsilons small member
    generalize (nfa.addPatterns parts).1 = fragments at *
    cases fragments with
    | nil =>
      have none : parts = [] := List.forall₂_nil_left_iff.1 all.complete
      subst none
      exact drains_skip nfa
    | cons f fragments =>
      rw [List.head?_cons, List.getLast?_eq_some_getLast (List.cons_ne_nil f fragments)]
      intro i new small
      rw [size_addEpsilons] at small
      obtain ⟨g, w, last, path⟩ := drains i new small
      rw [List.getLast?_eq_some_getLast (List.cons_ne_nil f fragments)] at last
      obtain rfl := Option.some.inj last
      exact ⟨w, path⟩
  | .alt branches, .alt filled live, nfa => by
    have place := place_addEnds nfa
    obtain ⟨first, drains⟩ := drains_addBranches branches live (extends_addEnds nfa) place.1 place.2
    rw [addPattern]
    dsimp only
    intro i new small
    by_cases outer : i < nfa.addEnds.2.states.size
    · rcases start_or_accept_of_new new outer with rfl | rfl
      · exact first filled
      · exact ⟨[], .refl _⟩
    · exact drains i (Nat.le_of_not_lt outer) small
  | .star body, .star live, nfa =>
    .repetition .star (drains_addPattern body live nfa.addEnds.2) (builds_addPattern body _)
  | .plus body, .plus live, nfa =>
    .repetition .plus (drains_addPattern body live nfa.addEnds.2) (builds_addPattern body _)
  | .opt body, .opt live, nfa =>
    .repetition .opt (drains_addPattern body live nfa.addEnds.2) (builds_addPattern body _)

/-- Once the fragments of a sequence are joined, every state leads to the exit of the last. -/
theorem drains_addPatterns : (parts : List Pattern) → (∀ p ∈ parts, p.Live) → (nfa : Nfa) →
    ∀ nfa'', (nfa.addPatterns parts).2.Within nfa'' →
      (∀ e ∈ links (nfa.addPatterns parts).1, nfa''.Path e.1 [] e.2) →
      ∀ i, nfa.states.size ≤ i → i < (nfa.addPatterns parts).2.states.size →
        ∃ f w, (nfa.addPatterns parts).1.getLast? = some f ∧ nfa''.Path i w f.accept
  | [], _, nfa => fun _ _ _ i new small => absurd small (Nat.not_lt.2 new)
  | p :: rest, live, nfa => by
    obtain ⟨here, others⟩ := List.forall_mem_cons.1 live
    have first := builds_addPattern p nfa
    have all := buildsAll_addPatterns rest (nfa.addPattern p).2
    have drains := drains_addPattern p here nfa
    have later := drains_addPatterns rest others (nfa.addPattern p).2
    rw [addPatterns]
    dsimp only
    intro nfa'' within joined
    generalize (nfa.addPattern p).1 = f at *
    generalize (nfa.addPattern p).2 = nfa' at *
    generalize (nfa'.addPatterns rest).1 = fragments at *
    generalize (nfa'.addPatterns rest).2 = nfa₂ at *
    intro i new small
    -- What the first part holds leads to its exit, and from there on along the link, if any.
    by_cases old : i < nfa'.states.size
    · obtain ⟨w, path⟩ := drains i new old
      have path := path.mono (all.within.trans within)
      cases fragments with
      | nil => exact ⟨f, w, rfl, path⟩
      | cons g fragments =>
        obtain ⟨link, joined⟩ := List.forall_mem_cons.1 joined
        obtain ⟨start, small'⟩ := (all.place g List.mem_cons_self).1
        obtain ⟨h, v, last, path'⟩ := later nfa'' within joined g.start start small'
        exact ⟨h, _, last, path.trans (link.trans path')⟩
    · have joined : ∀ e ∈ links fragments, nfa''.Path e.1 [] e.2 := by
        cases fragments with
        | nil => exact joined
        | cons g fragments => exact (List.forall_mem_cons.1 joined).2
      obtain ⟨h, w, last, path⟩ := later nfa'' within joined i (Nat.le_of_not_lt old) small
      exact ⟨h, w, by simp [List.getLast?_cons, last], path⟩

/-- From the entry a word leads through any branch to the exit, as one does from every state of a
branch. -/
theorem drains_addBranches : (branches : List Pattern) → (∀ p ∈ branches, p.Live) →
    {base nfa : Nfa} → {ends : Fragment} → Extends base nfa →
    base.states.size ≤ ends.start ∧ ends.start < nfa.states.size →
    base.states.size ≤ ends.accept ∧ ends.accept < nfa.states.size →
    (branches ≠ [] → ∃ w, (nfa.addBranches ends branches).Path ends.start w ends.accept) ∧
      (nfa.addBranches ends branches).Drains nfa.states.size ends.accept
  | [], _, _, _, _, _, _, _ =>
    ⟨fun none => absurd rfl none, fun i new small => absurd small (Nat.not_lt.2 new)⟩
  | p :: rest, live, base, nfa, ends, extended, start, accept => by
    obtain ⟨here, others⟩ := List.forall_mem_cons.1 live
    have first := builds_addPattern p nfa
    have drains := drains_addPattern p here nfa
    have grows : nfa.states.size ≤ (((nfa.addPattern p).2.addEpsilon ends.start
        (nfa.addPattern p).1.start).addEpsilon (nfa.addPattern p).1.accept
        ends.accept).states.size := by
      simpa using first.size
    have tied := extended.tie start accept first
    have start' := And.intro start.1 (Nat.lt_of_lt_of_le start.2 grows)
    have accept' := And.intro accept.1 (Nat.lt_of_lt_of_le accept.2 grows)
    have within := (buildsBranches_addBranches rest tied start' accept').path
    have later := (drains_addBranches rest others tied start' accept').2
    obtain ⟨enter, behind⟩ := drains.branch first start.2 within
    refine ⟨fun _ => enter, fun i new small => ?_⟩
    by_cases old : i < (nfa.addPattern p).2.states.size
    · exact behind i new old
    · exact later i (by simpa using old) small

end

/-- In the automaton of some tokens every state leads to one that accepts. -/
theorem exists_path_accept (tokens : List TokenPattern) :
    ∀ i < (ofTokens tokens).states.size, ∃ w j a, (ofTokens tokens).Path i w j ∧
      ((ofTokens tokens).state j).accept = some a := by
  induction tokens using List.reverseRecOn with
  | nil => exact fun i small => absurd small (Nat.not_lt_zero i)
  | append_singleton tokens t ih =>
    rw [ofTokens_concat, compile]
    cases parsed : Pattern.parse t.pattern with
    | error e => exact ih
    | ok p =>
      have adds : AddsToken (ofTokens tokens) _ _ t := addsToken_of_parse parsed
      have drains := drains_addPattern p (live_of_parse parsed) (ofTokens tokens)
      have small := (builds_addPattern p (ofTokens tokens)).accept.2
      intro i inside
      by_cases old : i < (ofTokens tokens).states.size
      · obtain ⟨w, j, a, path, accepts⟩ := ih i old
        exact ⟨w, j, a, path.mono (within_of_state adds.old), (adds.accepts j a).2 (.inl accepts)⟩
      · obtain ⟨w, path⟩ := drains i (Nat.le_of_not_lt old) (by simpa [size_addToken] using inside)
        exact ⟨w, _, _, (path_addToken_iff small).2 path, (adds.accepts _ _).2 (.inr ⟨rfl, rfl⟩)⟩

end Nfa
end Lalr.Lexer
