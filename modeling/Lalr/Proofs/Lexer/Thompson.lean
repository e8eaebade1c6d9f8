import Lalr.Lexer.Thompson
import Lalr.Proofs.Lexer.Language
import Lalr.Proofs.Lexer.Path

/-! Fragments read exactly the languages of their patterns. That they read no other words is
shown with languages for the new states: whatever is to be read behind the exit of a fragment,
the new states have languages that the edges respect, and the entry has that of the pattern in
front. This leaves open which edges are added to the ends of the fragment later. -/
namespace Lalr.Lexer.Nfa

open Computability Pattern

variable {nfa nfa' nfa'' : Nfa} {f g : Fragment} {i source target : Nat} {L K M : Language UInt8}
  {label : ByteSet} {V : Nat → Language UInt8}

/-- New states, none of which accepts, with edges among themselves, and nothing else. -/
structure Extends (nfa nfa' : Nfa) : Prop where
  size : nfa.states.size ≤ nfa'.states.size
  state : ∀ i < nfa.states.size, nfa'.state i = nfa.state i
  starts : nfa'.starts = nfa.starts
  idle : ∀ i, nfa.states.size ≤ i → (nfa'.state i).accept = none
  inside : ∀ i, nfa.states.size ≤ i → nfa'.LeadsInto nfa.states.size i

namespace Extends

theorem refl (nfa : Nfa) : Extends nfa nfa where
  size := Nat.le_refl _
  state _ _ := rfl
  starts := rfl
  idle i le := by rw [state_of_le le]
  inside _ le := leadsInto_of_empty (state_of_le le)

theorem trans (first : Extends nfa nfa') (second : Extends nfa' nfa'') : Extends nfa nfa'' where
  size := Nat.le_trans first.size second.size
  state i small := by
    rw [second.state i (Nat.lt_of_lt_of_le small first.size), first.state i small]
  starts := second.starts.trans first.starts
  idle i le := by
    by_cases small : i < nfa'.states.size
    · rw [second.state i small, first.idle i le]
    · exact second.idle i (Nat.le_of_not_lt small)
  inside i le := by
    by_cases small : i < nfa'.states.size
    · exact (first.inside i le).mono (Nat.le_refl _) second.size (second.state i small)
    · exact (second.inside i (Nat.le_of_not_lt small)).mono first.size (Nat.le_refl _) rfl

/-- If the edges lead to states before, they do so with the new states. -/
theorem bounded (h : Extends nfa nfa') (bounded : nfa.Bounded) : nfa'.Bounded := by
  intro i
  have leads : nfa'.LeadsInto 0 i := by
    by_cases small : i < nfa.states.size
    · exact (bounded.leadsInto i).mono (Nat.le_refl _) h.size (h.state i small)
    · exact (h.inside i (Nat.le_of_not_lt small)).mono (Nat.zero_le _) (Nat.le_refl _) rfl
  exact ⟨fun k edge => (leads.1 k edge).2, fun label k edge => (leads.2 label k edge).2⟩

theorem within (h : Extends nfa nfa') : nfa.Within nfa' := within_of_state h.state

theorem addEpsilon (h : Extends nfa nfa') (new : nfa.states.size ≤ source)
    (small : source < nfa'.states.size)
    (inside : nfa.states.size ≤ target ∧ target < nfa'.states.size) :
    Extends nfa (nfa'.addEpsilon source target) where
  size := by
    rw [size_addEpsilon]
    exact h.size
  state i old := by
    rw [state_addEpsilon small, if_neg (Nat.ne_of_lt (Nat.lt_of_lt_of_le old new)), h.state i old]
  starts := h.starts
  idle i le := by
    rw [state_addEpsilon small]
    split
    · exact h.idle i le
    · exact h.idle i le
  inside i le := (h.inside i le).addEpsilon small inside

theorem addEdge (h : Extends nfa nfa') (new : nfa.states.size ≤ source)
    (small : source < nfa'.states.size)
    (inside : nfa.states.size ≤ target ∧ target < nfa'.states.size) :
    Extends nfa (nfa'.addEdge source label target) where
  size := by
    rw [size_addEdge]
    exact h.size
  state i old := by
    rw [state_addEdge small, if_neg (Nat.ne_of_lt (Nat.lt_of_lt_of_le old new)), h.state i old]
  starts := h.starts
  idle i le := by
    rw [state_addEdge small]
    split
    · exact h.idle i le
    · exact h.idle i le
  inside i le := (h.inside i le).addEdge small inside

theorem addEpsilons {edges : List (Nat × Nat)} (h : Extends nfa nfa')
    (places : ∀ e ∈ edges, (nfa.states.size ≤ e.1 ∧ e.1 < nfa'.states.size) ∧
      nfa.states.size ≤ e.2 ∧ e.2 < nfa'.states.size) : Extends nfa (nfa'.addEpsilons edges) := by
  induction edges generalizing nfa' with
  | nil => exact h
  | cons e rest ih =>
    obtain ⟨⟨⟨new, small⟩, inside⟩, others⟩ := List.forall_mem_cons.1 places
    exact ih (h.addEpsilon new small inside) (by simpa using others)

end Extends

section Ends

theorem start_addEnds (nfa : Nfa) : nfa.addEnds.1.start = nfa.states.size := rfl

theorem accept_addEnds (nfa : Nfa) : nfa.addEnds.1.accept = nfa.states.size + 1 := by
  simp [addEnds, addState]

theorem size_addEnds (nfa : Nfa) : nfa.addEnds.2.states.size = nfa.states.size + 2 := by
  simp [addEnds, addState]

theorem state_addEnds (nfa : Nfa) (i : Nat) : nfa.addEnds.2.state i = nfa.state i := by
  exact (state_addState i).trans (state_addState i)

theorem extends_addEnds (nfa : Nfa) : Extends nfa nfa.addEnds.2 where
  size := by
    rw [size_addEnds]
    exact Nat.le_add_right _ 2
  state i _ := state_addEnds nfa i
  starts := rfl
  idle i le := by rw [state_addEnds, state_of_le le]
  inside i le := leadsInto_of_empty (by rw [state_addEnds, state_of_le le])

/-- New ends are behind the old states. -/
theorem place_addEnds (nfa : Nfa) :
    (nfa.states.size ≤ nfa.addEnds.1.start ∧ nfa.addEnds.1.start < nfa.addEnds.2.states.size) ∧
      nfa.states.size ≤ nfa.addEnds.1.accept ∧
      nfa.addEnds.1.accept < nfa.addEnds.2.states.size := by
  rw [start_addEnds, accept_addEnds, size_addEnds]
  omega

/-- New ends can be given any languages. -/
theorem exists_languages_addEnds (nfa : Nfa) (V : Nat → Language UInt8) (A K : Language UInt8) :
    ∃ V' : Nat → Language UInt8, (∀ i < nfa.states.size, V' i = V i) ∧
      V' nfa.addEnds.1.start = A ∧ V' nfa.addEnds.1.accept = K := by
  refine ⟨fun i => if i = nfa.addEnds.1.start then A
    else if i = nfa.addEnds.1.accept then K else V i, fun i old => ?_, if_pos rfl, ?_⟩
  · obtain ⟨⟨start, -⟩, accept, -⟩ := place_addEnds nfa
    exact (if_neg (by omega)).trans (if_neg (by omega))
  · have different : nfa.addEnds.1.accept ≠ nfa.addEnds.1.start := by
      rw [accept_addEnds, start_addEnds]
      omega
    exact (if_neg different).trans (if_pos rfl)

end Ends

theorem respects_of_empty (empty : nfa.state i = {}) : nfa.Respects V i := by
  constructor
  · intro k edge
    rw [empty] at edge
    cases edge
  · intro l k edge
    rw [empty] at edge
    cases edge

structure Builds (nfa nfa' : Nfa) (f : Fragment) (L : Language UInt8) : Prop
    extends Extends nfa nfa' where
  start : nfa.states.size ≤ f.start ∧ f.start < nfa'.states.size
  accept : nfa.states.size ≤ f.accept ∧ f.accept < nfa'.states.size
  complete : ∀ w ∈ L, nfa'.Path f.start w f.accept
  sound : ∀ (V : Nat → Language UInt8) (K : Language UInt8), ∃ V' : Nat → Language UInt8,
    (∀ i < nfa.states.size, V' i = V i) ∧ V' f.accept = K ∧ V' f.start = L * K ∧
    ∀ i, nfa.states.size ≤ i → nfa'.Respects V' i

/-- Languages for new ends around a fragment. -/
theorem Builds.exists_languages (h : Builds nfa.addEnds.2 nfa' g L) (V : Nat → Language UInt8)
    (A K M : Language UInt8) : ∃ V' : Nat → Language UInt8,
      (∀ i < nfa.states.size, V' i = V i) ∧
      V' nfa.addEnds.1.start = A ∧ V' nfa.addEnds.1.accept = K ∧
      V' g.accept = M ∧ V' g.start = L * M ∧ ∀ i, nfa.states.size ≤ i → nfa'.Respects V' i := by
  obtain ⟨V₁, old, start, accept⟩ := exists_languages_addEnds nfa V A K
  obtain ⟨V₂, frame, atAccept, atStart, respects⟩ := h.sound V₁ M
  obtain ⟨⟨-, startLt⟩, -, acceptLt⟩ := place_addEnds nfa
  refine ⟨V₂, fun i small => ?_, ?_, ?_, atAccept, atStart, fun i le => ?_⟩
  · rw [frame i (by rw [size_addEnds]; omega), old i small]
  · rw [frame _ startLt, start]
  · rw [frame _ acceptLt, accept]
  · by_cases inner : nfa.addEnds.2.states.size ≤ i
    · exact respects i inner
    · apply respects_of_empty
      rw [h.state i (Nat.lt_of_not_le inner), state_addEnds, state_of_le le]

theorem builds_bytes (nfa : Nfa) (set : ByteSet) :
    Builds nfa (nfa.addEnds.2.addEdge nfa.addEnds.1.start set nfa.addEnds.1.accept)
      nfa.addEnds.1 (language (.bytes set)) := by
  obtain ⟨⟨le, small⟩, le', small'⟩ := place_addEnds nfa
  refine { (extends_addEnds nfa).addEdge le small ⟨le', small'⟩ with
    start := ?_, accept := ?_, complete := ?_, sound := ?_ }
  · rw [size_addEdge]
    exact ⟨le, small⟩
  · rw [size_addEdge]
    exact ⟨le', small'⟩
  · rintro w ⟨b, member, rfl⟩
    exact path_addEdge small member
  · intro V K
    obtain ⟨V', frame, atStart, atAccept⟩ :=
      exists_languages_addEnds nfa V (language (.bytes set) * K) K
    refine ⟨V', frame, atAccept, atStart, fun i le => ?_⟩
    have old : nfa.addEnds.2.state i = {} := by rw [state_addEnds, state_of_le le]
    by_cases same : i = nfa.addEnds.1.start
    · subst same
      constructor
      · intro k edge
        rw [state_addEdge small, if_pos rfl, old] at edge
        cases edge
      · intro l k edge b member w inV
        rw [state_addEdge small, if_pos rfl, old] at edge
        cases List.mem_singleton.1 edge
        rw [atAccept] at inV
        rw [atStart]
        exact ⟨[b], ⟨b, member, rfl⟩, w, inV, rfl⟩
    · exact respects_of_empty (by rw [state_addEdge small, if_neg same, old])

/-- New ends around a fragment, with epsilon edges from the entry and the inner exit to the inner
entry and the exit. -/
theorem Builds.around {edges : List (Nat × Nat)} (h : Builds nfa.addEnds.2 nfa' g L)
    (places : ∀ e ∈ edges, (e.1 = nfa.addEnds.1.start ∨ e.1 = g.accept) ∧
      (e.2 = g.start ∨ e.2 = nfa.addEnds.1.accept))
    (complete : ∀ nfa'' : Nfa, nfa'.Within nfa'' → (∀ e ∈ edges, nfa''.Path e.1 [] e.2) →
      ∀ w ∈ M, nfa''.Path nfa.addEnds.1.start w nfa.addEnds.1.accept)
    (sound : ∀ K : Language UInt8, ∃ A, ∀ V : Nat → Language UInt8,
      V nfa.addEnds.1.start = M * K → V nfa.addEnds.1.accept = K → V g.accept = A →
      V g.start = L * A → ∀ e ∈ edges, V e.2 ≤ V e.1) :
    Builds nfa (nfa'.addEpsilons edges) nfa.addEnds.1 M := by
  have size := h.size
  have inner := h.accept.1
  have inner' := h.start.1
  rw [size_addEnds] at size inner inner'
  have startLt : nfa.addEnds.1.start < nfa'.states.size := by rw [start_addEnds]; omega
  have acceptLt : nfa.addEnds.1.accept < nfa'.states.size := by rw [accept_addEnds]; omega
  have sources : ∀ e ∈ edges, nfa.states.size ≤ e.1 ∧ e.1 < nfa'.states.size := by
    intro e member
    rcases (places e member).1 with eq | eq
    · rw [eq]
      exact ⟨Nat.le_refl _, startLt⟩
    · rw [eq]
      exact ⟨by omega, h.accept.2⟩
  have targets : ∀ e ∈ edges, nfa.states.size ≤ e.2 ∧ e.2 < nfa'.states.size := by
    intro e member
    rcases (places e member).2 with eq | eq
    · rw [eq]
      exact ⟨by omega, h.start.2⟩
    · rw [eq]
      exact ⟨by rw [accept_addEnds]; omega, acceptLt⟩
  refine { ((extends_addEnds nfa).trans h.toExtends).addEpsilons fun e member =>
    ⟨sources e member, targets e member⟩ with
    start := ?_, accept := ?_, complete := ?_, sound := ?_ }
  · rw [size_addEpsilons]
    exact ⟨Nat.le_refl _, startLt⟩
  · rw [size_addEpsilons]
    exact ⟨by rw [accept_addEnds]; omega, acceptLt⟩
  · have small : ∀ e ∈ edges, e.1 < nfa'.states.size := fun e member => (sources e member).2
    exact complete _ (within_addEpsilons small) fun e member => path_addEpsilons small member
  · intro V K
    obtain ⟨A, edgesLe⟩ := sound K
    obtain ⟨V', frame, atStart, atAccept, innerAccept, innerStart, respects⟩ :=
      h.exists_languages V (M * K) K A
    refine ⟨V', frame, atAccept, atStart, fun i le => (respects i le).addEpsilons fun e member => ?_⟩
    exact ⟨(sources e member).2, edgesLe V' atStart atAccept innerAccept innerStart e member⟩

/-- Epsilon edges from the exit to the entry and beyond let a fragment be repeated. -/
theorem Builds.path_repeat {last : Nat} (h : Builds nfa nfa' g L) (within : nfa'.Within nfa'')
    (again : nfa''.Path g.accept [] g.start) (leave : nfa''.Path g.accept [] last) :
    ∀ w ∈ L∗, nfa''.Path g.accept w last := by
  intro w member
  obtain ⟨parts, rfl, inL⟩ := Language.mem_kstar.1 member
  clear member
  induction parts with
  | nil => exact leave
  | cons u rest ih =>
    obtain ⟨here, others⟩ := List.forall_mem_cons.1 inL
    rw [List.flatten_cons]
    exact again.trans (((h.complete u here).mono within).trans (ih others))

section Repetitions

variable (h : Builds nfa.addEnds.2 nfa' g L)
include h

theorem builds_star : Builds nfa (nfa'.addEpsilons [(nfa.addEnds.1.start, g.start),
    (nfa.addEnds.1.start, nfa.addEnds.1.accept), (g.accept, g.start),
    (g.accept, nfa.addEnds.1.accept)]) nfa.addEnds.1 (L∗) := by
  refine h.around (by simp) ?_ fun K => ⟨L∗ * K, ?_⟩
  · intro nfa'' within edges w member
    simp only [List.forall_mem_cons] at edges
    obtain ⟨enter, skip, again, leave, -⟩ := edges
    rw [← Language.one_add_self_mul_kstar_eq_kstar] at member
    rcases member with rfl | ⟨u, first, v, others, rfl⟩
    · exact skip
    · exact enter.trans (((h.complete u first).mono within).trans
        (h.path_repeat within again leave v others))
  · intro V atStart atAccept innerAccept innerStart
    simp only [List.forall_mem_cons, atStart, atAccept, innerAccept, innerStart, ← mul_assoc]
    have skip : K ≤ L∗ * K := by simpa using mul_le_mul_left one_le_kstar K
    have again : L * L∗ * K ≤ L∗ * K := mul_le_mul_left mul_kstar_le_kstar K
    exact ⟨again, skip, again, skip, by simp⟩

theorem builds_plus : Builds nfa (nfa'.addEpsilons [(nfa.addEnds.1.start, g.start),
    (g.accept, g.start), (g.accept, nfa.addEnds.1.accept)]) nfa.addEnds.1 (L * L∗) := by
  refine h.around (by simp) ?_ fun K => ⟨L∗ * K, ?_⟩
  · intro nfa'' within edges w member
    simp only [List.forall_mem_cons] at edges
    obtain ⟨enter, again, leave, -⟩ := edges
    obtain ⟨u, first, v, others, rfl⟩ := member
    exact enter.trans (((h.complete u first).mono within).trans
      (h.path_repeat within again leave v others))
  · intro V atStart atAccept innerAccept innerStart
    simp only [List.forall_mem_cons, atStart, atAccept, innerAccept, innerStart, ← mul_assoc]
    have skip : K ≤ L∗ * K := by simpa using mul_le_mul_left one_le_kstar K
    have again : L * L∗ * K ≤ L∗ * K := mul_le_mul_left mul_kstar_le_kstar K
    exact ⟨le_refl _, again, skip, by simp⟩

theorem builds_opt : Builds nfa (nfa'.addEpsilons [(nfa.addEnds.1.start, g.start),
    (nfa.addEnds.1.start, nfa.addEnds.1.accept), (g.accept, nfa.addEnds.1.accept)])
    nfa.addEnds.1 (1 + L) := by
  refine h.around (by simp) ?_ fun K => ⟨K, ?_⟩
  · intro nfa'' within edges w member
    simp only [List.forall_mem_cons] at edges
    obtain ⟨enter, skip, leave, -⟩ := edges
    rcases member with rfl | inL
    · exact skip
    · have path := enter.trans (((h.complete w inL).mono within).trans leave)
      rwa [List.nil_append, List.append_nil] at path
  · intro V atStart atAccept innerAccept innerStart
    simp only [List.forall_mem_cons, atStart, atAccept, innerAccept, innerStart, add_mul, one_mul]
    exact ⟨le_sup_right, le_sup_left, le_refl _, by simp⟩

end Repetitions

section Sequences

variable {fragments : List Fragment} {parts : List Pattern}

/-- Between the parts of a sequence the languages are those of the remaining parts. -/
def Chained (V : Nat → Language UInt8) (K : Language UInt8) : List Fragment → List Pattern → Prop
  | [], [] => True
  | f :: fragments, p :: parts => V f.accept = sequenceLanguage parts * K ∧
    V f.start = sequenceLanguage (p :: parts) * K ∧ Chained V K fragments parts
  | _, _ => False

structure BuildsAll (nfa nfa' : Nfa) (fragments : List Fragment) (parts : List Pattern) : Prop
    extends Extends nfa nfa' where
  place : ∀ f ∈ fragments, (nfa.states.size ≤ f.start ∧ f.start < nfa'.states.size) ∧
    nfa.states.size ≤ f.accept ∧ f.accept < nfa'.states.size
  complete : List.Forall₂ (fun f p => ∀ w ∈ p.language, nfa'.Path f.start w f.accept)
    fragments parts
  sound : ∀ (V : Nat → Language UInt8) (K : Language UInt8), ∃ V' : Nat → Language UInt8,
    (∀ i < nfa.states.size, V' i = V i) ∧ Chained V' K fragments parts ∧
    ∀ i, nfa.states.size ≤ i → nfa'.Respects V' i

theorem BuildsAll.nil (nfa : Nfa) : BuildsAll nfa nfa [] [] where
  toExtends := .refl nfa
  place := by simp
  complete := .nil
  sound V _ := ⟨V, fun _ _ => rfl, trivial, fun _ le => respects_of_empty (state_of_le le)⟩

theorem BuildsAll.cons {p : Pattern} (first : Builds nfa nfa' f p.language)
    (rest : BuildsAll nfa' nfa'' fragments parts) :
    BuildsAll nfa nfa'' (f :: fragments) (p :: parts) := by
  have within := rest.within
  have size := first.size
  have size' := rest.size
  refine { first.toExtends.trans rest.toExtends with place := ?_, complete := ?_, sound := ?_ }
  · refine List.forall_mem_cons.2 ⟨?_, fun g member => ?_⟩
    · have := first.start
      have := first.accept
      omega
    · have := rest.place g member
      omega
  · exact .cons (fun w member => (first.complete w member).mono within) rest.complete
  · intro V K
    obtain ⟨V₁, frame, atAccept, atStart, respects⟩ := first.sound V (sequenceLanguage parts * K)
    obtain ⟨V₂, frame', chained, respects'⟩ := rest.sound V₁ K
    refine ⟨V₂, fun i small => ?_, ⟨?_, ?_, chained⟩, fun i le => ?_⟩
    · rw [frame' i (by omega), frame i small]
    · rw [frame' _ first.accept.2, atAccept]
    · rw [frame' _ first.start.2, atStart, sequenceLanguage, mul_assoc]
    · by_cases small : i < nfa'.states.size
      · exact (respects i le).extend (first.inside i le) small (rest.state i small) frame'
      · exact respects' i (by omega)

def links : List Fragment → List (Nat × Nat)
  | f :: g :: rest => (f.accept, g.start) :: links (g :: rest)
  | _ => []

theorem chain_eq (nfa : Nfa) (fragments : List Fragment) :
    nfa.chain fragments = nfa.addEpsilons (links fragments) := by
  fun_induction chain nfa fragments with
  | case1 f g rest nfa ih => exact ih
  | case2 fragments nfa other =>
    cases fragments with
    | nil => rfl
    | cons f fragments =>
      cases fragments with
      | nil => rfl
      | cons g rest => exact (other f g rest rfl).elim

theorem mem_links {e : Nat × Nat} : {fragments : List Fragment} → e ∈ links fragments →
    (∃ f ∈ fragments, e.1 = f.accept) ∧ ∃ g ∈ fragments, e.2 = g.start
  | f :: g :: rest, member => by
    rcases List.mem_cons.1 member with rfl | later
    · exact ⟨⟨f, by simp, rfl⟩, g, by simp, rfl⟩
    · obtain ⟨⟨h, source⟩, h', target⟩ := mem_links later
      exact ⟨⟨h, .tail _ source.1, source.2⟩, h', .tail _ target.1, target.2⟩

theorem Chained.links_le {e : Nat × Nat} : {fragments : List Fragment} → {parts : List Pattern} →
    Chained V K fragments parts → e ∈ links fragments → V e.2 ≤ V e.1
  | f :: g :: rest, p :: q :: parts, h, member => by
    rcases List.mem_cons.1 member with rfl | later
    · exact le_of_eq (h.2.2.2.1.trans h.1.symm)
    · exact Chained.links_le h.2.2 later

/-- Joined fragments read the words of the sequence. -/
theorem path_sequence (complete : List.Forall₂ (fun f p => ∀ w ∈ p.language,
      nfa.Path f.start w f.accept) (f :: fragments) parts)
    (joined : ∀ e ∈ links (f :: fragments), nfa.Path e.1 [] e.2) :
    ∀ w ∈ sequenceLanguage parts, nfa.Path f.start w
      ((f :: fragments).getLast (List.cons_ne_nil _ _)).accept := by
  induction fragments generalizing f parts with
  | nil =>
    cases complete with
    | cons here none =>
      cases none
      intro w member
      rw [sequenceLanguage, sequenceLanguage, mul_one] at member
      exact here w member
  | cons g fragments ih =>
    cases complete with
    | cons here others =>
      obtain ⟨link, joined⟩ := List.forall_mem_cons.1 joined
      rintro w ⟨u, first, v, rest, rfl⟩
      exact (here u first).trans (link.trans (ih others joined v rest))

theorem Chained.getLast : {f : Fragment} → {fragments : List Fragment} →
    {parts : List Pattern} → Chained V K (f :: fragments) parts →
    V ((f :: fragments).getLast (List.cons_ne_nil _ _)).accept = K
  | _, [], [_], h => h.1.trans (one_mul K)
  | _, g :: fragments, _ :: q :: parts, h => by
    rw [List.getLast_cons (List.cons_ne_nil g fragments)]
    exact Chained.getLast h.2.2

theorem BuildsAll.join (h : BuildsAll nfa nfa' (f :: fragments) parts) :
    Builds nfa (nfa'.addEpsilons (links (f :: fragments)))
      ⟨f.start, ((f :: fragments).getLast (List.cons_ne_nil _ _)).accept⟩
      (sequenceLanguage parts) := by
  have places : ∀ e ∈ links (f :: fragments), (nfa.states.size ≤ e.1 ∧ e.1 < nfa'.states.size) ∧
      nfa.states.size ≤ e.2 ∧ e.2 < nfa'.states.size := by
    intro e member
    obtain ⟨⟨g, inList, source⟩, g', inList', target⟩ := mem_links member
    rw [source, target]
    exact ⟨(h.place g inList).2, (h.place g' inList').1⟩
  have small : ∀ e ∈ links (f :: fragments), e.1 < nfa'.states.size :=
    fun e member => (places e member).1.2
  have within := within_addEpsilons small
  refine { h.toExtends.addEpsilons places with
    start := ?_, accept := ?_, complete := ?_, sound := ?_ }
  · rw [size_addEpsilons]
    exact (h.place f List.mem_cons_self).1
  · rw [size_addEpsilons]
    exact (h.place _ (List.getLast_mem _)).2
  · refine path_sequence (h.complete.imp fun g p complete w member => ?_)
      fun e member => path_addEpsilons small member
    exact (complete w member).mono within
  · intro V K
    obtain ⟨V', frame, chained, respects⟩ := h.sound V K
    refine ⟨V', frame, chained.getLast, ?_, fun i le => (respects i le).addEpsilons fun e member =>
      ⟨small e member, chained.links_le member⟩⟩
    cases parts with
    | nil => exact chained.elim
    | cons p parts => exact chained.2.1

/-- The empty sequence is an epsilon edge between new ends. -/
theorem builds_skip (nfa : Nfa) :
    Builds nfa (nfa.addEnds.2.addEpsilon nfa.addEnds.1.start nfa.addEnds.1.accept)
      nfa.addEnds.1 1 := by
  obtain ⟨⟨le, small⟩, le', small'⟩ := place_addEnds nfa
  refine { (extends_addEnds nfa).addEpsilon le small ⟨le', small'⟩ with
    start := ?_, accept := ?_, complete := ?_, sound := ?_ }
  · rw [size_addEpsilon]
    exact ⟨le, small⟩
  · rw [size_addEpsilon]
    exact ⟨le', small'⟩
  · rintro w rfl
    exact path_addEpsilon small
  · intro V K
    obtain ⟨V', frame, atStart, atAccept⟩ := exists_languages_addEnds nfa V K K
    refine ⟨V', frame, atAccept, by rw [one_mul, atStart], fun i le => ?_⟩
    apply (respects_of_empty (by rw [state_addEnds, state_of_le le])).addEpsilon small
    rw [atAccept, atStart]

end Sequences

section Choices

variable {base : Nfa} {ends : Fragment} {branches : List Pattern}

structure BuildsBranches (base nfa nfa' : Nfa) (ends : Fragment) (branches : List Pattern) : Prop
    extends Extends base nfa' where
  grows : nfa.states.size ≤ nfa'.states.size
  path : nfa.Within nfa'
  complete : ∀ w ∈ choiceLanguage branches, nfa'.Path ends.start w ends.accept
  sound : ∀ (V : Nat → Language UInt8) (K : Language UInt8), V ends.accept = K →
    choiceLanguage branches * K ≤ V ends.start →
    (∀ i, base.states.size ≤ i → nfa.Respects V i) → ∃ V' : Nat → Language UInt8,
      (∀ i < nfa.states.size, V' i = V i) ∧ ∀ i, base.states.size ≤ i → nfa'.Respects V' i

theorem BuildsBranches.nil (h : Extends base nfa) : BuildsBranches base nfa nfa ends [] where
  toExtends := h
  grows := Nat.le_refl _
  path := .refl nfa
  complete w member := (Language.notMem_zero w member).elim
  sound V _ _ _ respects := ⟨V, fun _ _ => rfl, respects⟩

/-- A fragment is tied to ends that exist already. -/
theorem Extends.tie (h : Extends base nfa)
    (start : base.states.size ≤ ends.start ∧ ends.start < nfa.states.size)
    (accept : base.states.size ≤ ends.accept ∧ ends.accept < nfa.states.size)
    (first : Builds nfa nfa' f L) :
    Extends base ((nfa'.addEpsilon ends.start f.start).addEpsilon f.accept ends.accept) := by
  have size := first.size
  have places := h.size
  have enter := first.start
  have exit := first.accept
  refine Extends.addEpsilon ?_ (by omega) (by simpa using exit.2) (by
    simp only [size_addEpsilon]
    omega)
  exact (h.trans first.toExtends).addEpsilon start.1 (by omega) (by omega)

theorem BuildsBranches.cons {p : Pattern} (h : Extends base nfa)
    (start : base.states.size ≤ ends.start ∧ ends.start < nfa.states.size)
    (accept : ends.accept < nfa.states.size) (first : Builds nfa nfa' f p.language)
    (rest : BuildsBranches base ((nfa'.addEpsilon ends.start f.start).addEpsilon f.accept
      ends.accept) nfa'' ends branches) :
    BuildsBranches base nfa nfa'' ends (p :: branches) := by
  have size := h.size
  have size' := first.size
  have edges : ∀ e ∈ [(ends.start, f.start), (f.accept, ends.accept)], e.1 < nfa'.states.size := by
    simp only [List.forall_mem_cons]
    exact ⟨by omega, first.accept.2, by simp⟩
  have joined := (within_addEpsilons edges).trans rest.path
  refine { rest.toExtends with grows := ?_, path := ?_, complete := ?_, sound := ?_ }
  · have := rest.grows
    simp only [size_addEpsilon] at this
    omega
  · exact first.within.trans joined
  · rintro w (member | member)
    · have enter : nfa''.Path ends.start [] f.start :=
        (path_addEpsilons edges (by simp)).mono rest.path
      have leave : nfa''.Path f.accept [] ends.accept :=
        (path_addEpsilons edges (by simp)).mono rest.path
      have path := enter.trans (((first.complete w member).mono joined).trans leave)
      rwa [List.nil_append, List.append_nil] at path
    · exact rest.complete w member
  · intro V K atAccept part respects
    obtain ⟨V₁, frame, exit, entry, respects'⟩ := first.sound V K
    rw [choiceLanguage, add_mul] at part
    have startEq : V₁ ends.start = V ends.start := frame _ start.2
    have acceptEq : V₁ ends.accept = K := (frame _ accept).trans atAccept
    have all : ∀ i, base.states.size ≤ i → (nfa'.addEpsilons [(ends.start, f.start),
        (f.accept, ends.accept)]).Respects V₁ i := by
      intro i le
      have before : nfa'.Respects V₁ i := by
        by_cases old : i < nfa.states.size
        · exact (respects i le).extend (h.inside i le) old (first.state i old) frame
        · exact respects' i (by omega)
      apply before.addEpsilons
      simp only [List.forall_mem_cons]
      refine ⟨⟨by omega, ?_⟩, ⟨first.accept.2, ?_⟩, by simp⟩
      · rw [entry, startEq]
        exact le_sup_left.trans part
      · rw [acceptEq, exit]
    obtain ⟨V₂, frame', respects''⟩ := rest.sound V₁ K acceptEq
      (by rw [startEq]; exact le_sup_right.trans part) all
    simp only [size_addEpsilon] at frame'
    refine ⟨V₂, fun i small => ?_, respects''⟩
    rw [frame' i (by omega), frame i small]

theorem BuildsBranches.join
    (h : BuildsBranches nfa nfa.addEnds.2 nfa' nfa.addEnds.1 branches) :
    Builds nfa nfa' nfa.addEnds.1 (choiceLanguage branches) := by
  have size := h.grows
  rw [size_addEnds] at size
  refine { h.toExtends with start := ?_, accept := ?_, complete := h.complete, sound := ?_ }
  · rw [start_addEnds]
    omega
  · rw [accept_addEnds]
    omega
  · intro V K
    let V₁ : Nat → Language UInt8 := fun i =>
      if i = nfa.states.size then choiceLanguage branches * K
      else if i = nfa.states.size + 1 then K else V i
    have atStart : V₁ nfa.addEnds.1.start = choiceLanguage branches * K := if_pos rfl
    have atAccept : V₁ nfa.addEnds.1.accept = K := by
      rw [accept_addEnds]
      exact (if_neg (by omega)).trans (if_pos rfl)
    obtain ⟨V₂, frame, respects⟩ := h.sound V₁ K atAccept (le_of_eq atStart.symm)
      fun i le => respects_of_empty (by rw [state_addEnds, state_of_le le])
    rw [size_addEnds] at frame
    refine ⟨V₂, fun i small => ?_, ?_, ?_, respects⟩
    · rw [frame i (by omega)]
      exact (if_neg (by omega)).trans (if_neg (by omega))
    · rw [frame _ (by rw [accept_addEnds]; omega), atAccept]
    · rw [frame _ (by rw [start_addEnds]; omega), atStart]

end Choices

mutual

/-- The fragment of a pattern reads the language of the pattern. -/
theorem builds_addPattern : (p : Pattern) → (nfa : Nfa) →
    Builds nfa (nfa.addPattern p).2 (nfa.addPattern p).1 p.language
  | .bytes set, nfa => builds_bytes nfa set
  | .cat parts, nfa => by
    have all := buildsAll_addPatterns parts nfa
    rw [addPattern, language]
    dsimp only
    rw [chain_eq]
    generalize (nfa.addPatterns parts).1 = fragments at all ⊢
    cases fragments with
    | nil =>
      have none : parts = [] := List.forall₂_nil_left_iff.1 all.complete
      subst none
      exact builds_skip nfa
    | cons f fragments =>
      have joined := all.join
      rw [List.head?_cons, List.getLast?_eq_some_getLast (List.cons_ne_nil f fragments)]
      exact joined
  | .alt branches, nfa => by
    refine (buildsBranches_addBranches branches (extends_addEnds nfa) ?_ ?_).join
    · rw [start_addEnds, size_addEnds]
      omega
    · rw [accept_addEnds, size_addEnds]
      omega
  | .star body, nfa => builds_star (builds_addPattern body nfa.addEnds.2)
  | .plus body, nfa => builds_plus (builds_addPattern body nfa.addEnds.2)
  | .opt body, nfa => builds_opt (builds_addPattern body nfa.addEnds.2)

theorem buildsAll_addPatterns : (parts : List Pattern) → (nfa : Nfa) →
    BuildsAll nfa (nfa.addPatterns parts).2 (nfa.addPatterns parts).1 parts
  | [], nfa => .nil nfa
  | p :: rest, nfa => .cons (builds_addPattern p nfa) (buildsAll_addPatterns rest _)

theorem buildsBranches_addBranches : (branches : List Pattern) → {base nfa : Nfa} →
    {ends : Fragment} → Extends base nfa →
    base.states.size ≤ ends.start ∧ ends.start < nfa.states.size →
    base.states.size ≤ ends.accept ∧ ends.accept < nfa.states.size →
    BuildsBranches base nfa (nfa.addBranches ends branches) ends branches
  | [], _, _, _, extended, _, _ => .nil extended
  | p :: rest, base, nfa, ends, extended, start, accept => by
    have first := builds_addPattern p nfa
    have size := first.size
    refine .cons extended start accept.2 first
      (buildsBranches_addBranches rest (extended.tie start accept first) ?_ ?_)
    · simp only [size_addEpsilon]
      omega
    · simp only [size_addEpsilon]
      omega

end

end Lalr.Lexer.Nfa
