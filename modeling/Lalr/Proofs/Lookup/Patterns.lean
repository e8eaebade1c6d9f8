import Lalr.Proofs.Lexer.Recognition
import Lalr.Proofs.Lookup.Names

/-! Compiling token patterns finds every state that it adds an edge to: the ends of a fragment
exist before anything is attached to them. -/
namespace Lalr

namespace Lexer.Nfa

variable {nfa : Nfa} {source : Nat} {edges : List (Nat × Nat)}

def addEdge? (nfa : Nfa) (source : Nat) (label : ByteSet) (target : Nat) : Option Nfa :=
  (nfa.states[source]?).map fun _ => nfa.addEdge source label target

def addEpsilon? (nfa : Nfa) (source target : Nat) : Option Nfa :=
  (nfa.states[source]?).map fun _ => nfa.addEpsilon source target

def addEpsilons? (nfa : Nfa) (edges : List (Nat × Nat)) : Option Nfa :=
  edges.foldlM (fun nfa e => nfa.addEpsilon? e.1 e.2) nfa

def addToken? (nfa : Nfa) (f : Fragment) (accept : TokenAccept) : Option Nfa :=
  (nfa.states[f.accept]?).map fun _ => nfa.addToken f accept

mutual

def addPattern? (nfa : Nfa) : Pattern → Option (Fragment × Nfa)
  | .bytes set => do
    let (f, nfa) := nfa.addEnds
    return (f, ← nfa.addEdge? f.start set f.accept)
  | .cat parts => do
    let (fragments, nfa) ← nfa.addPatterns? parts
    let nfa ← nfa.addEpsilons? (links fragments)
    match fragments.head?, fragments.getLast? with
    | some first, some last => return (⟨first.start, last.accept⟩, nfa)
    | _, _ =>
      let (f, nfa) := nfa.addEnds
      return (f, ← nfa.addEpsilon? f.start f.accept)
  | .alt branches => do
    let (f, nfa) := nfa.addEnds
    return (f, ← nfa.addBranches? f branches)
  | .star body => do
    let (f, nfa) := nfa.addEnds
    let (inner, nfa) ← nfa.addPattern? body
    return (f, ← nfa.addEpsilons? [(f.start, inner.start), (f.start, f.accept),
      (inner.accept, inner.start), (inner.accept, f.accept)])
  | .plus body => do
    let (f, nfa) := nfa.addEnds
    let (inner, nfa) ← nfa.addPattern? body
    return (f, ← nfa.addEpsilons? [(f.start, inner.start), (inner.accept, inner.start),
      (inner.accept, f.accept)])
  | .opt body => do
    let (f, nfa) := nfa.addEnds
    let (inner, nfa) ← nfa.addPattern? body
    return (f, ← nfa.addEpsilons? [(f.start, inner.start), (f.start, f.accept),
      (inner.accept, f.accept)])

def addPatterns? (nfa : Nfa) : List Pattern → Option (List Fragment × Nfa)
  | [] => some ([], nfa)
  | p :: rest => do
    let (f, nfa) ← nfa.addPattern? p
    let (fragments, nfa) ← nfa.addPatterns? rest
    return (f :: fragments, nfa)

def addBranches? (nfa : Nfa) (ends : Fragment) : List Pattern → Option Nfa
  | [] => some nfa
  | p :: rest => do
    let (f, nfa) ← nfa.addPattern? p
    let nfa ← nfa.addEpsilons? [(ends.start, f.start), (f.accept, ends.accept)]
    nfa.addBranches? ends rest

end

def compile? (nfa : Nfa) (t : TokenPattern) : Option (Except PatternError (Fragment × Nfa)) :=
  match Pattern.parse t.pattern with
  | .error e => some (.error e)
  | .ok p => do
    let (f, nfa) ← nfa.addPattern? p
    return .ok (f, ← nfa.addToken? f ⟨t.terminal, t.priority⟩)

theorem addEdge?_eq {label : ByteSet} {target : Nat} (small : source < nfa.states.size) :
    nfa.addEdge? source label target = some (nfa.addEdge source label target) := by
  rw [addEdge?, Array.getElem?_eq_getElem small, Option.map_some]

theorem addEpsilon?_eq {target : Nat} (small : source < nfa.states.size) :
    nfa.addEpsilon? source target = some (nfa.addEpsilon source target) := by
  rw [addEpsilon?, Array.getElem?_eq_getElem small, Option.map_some]

theorem addEpsilons?_eq (small : ∀ e ∈ edges, e.1 < nfa.states.size) :
    nfa.addEpsilons? edges = some (nfa.addEpsilons edges) := by
  refine (foldlM_eq (P := fun nfa' : Nfa => nfa'.states.size = nfa.states.size)
    (fun nfa' e member size => ⟨?_, ?_⟩) rfl).1
  · exact addEpsilon?_eq (size ▸ small e member)
  · rw [size_addEpsilon, size]

/-- The entry of new ends and the exit of a fragment between them can be attached to. -/
theorem Builds.addEpsilons?_eq {nfa' : Nfa} {g : Fragment} {L : Language UInt8}
    (h : Builds nfa.addEnds.2 nfa' g L)
    (sources : ∀ e ∈ edges, e.1 = nfa.addEnds.1.start ∨ e.1 = g.accept) :
    nfa'.addEpsilons? edges = some (nfa'.addEpsilons edges) := by
  refine Nfa.addEpsilons?_eq fun e member => ?_
  rcases sources e member with same | same
  · exact same ▸ Nat.lt_of_lt_of_le (place_addEnds nfa).1.2 h.size
  · exact same ▸ h.accept.2

mutual

/-- The states that a fragment is made of are there when edges are added to them. -/
theorem addPattern?_eq : (p : Pattern) → (nfa : Nfa) →
    nfa.addPattern? p = some (nfa.addPattern p)
  | .bytes set, nfa => by
    simp only [addPattern?, addPattern, addEdge?_eq (place_addEnds nfa).1.2]
    rfl
  | .cat parts, nfa => by
    have all := buildsAll_addPatterns parts nfa
    have linked : (nfa.addPatterns parts).2.addEpsilons? (links (nfa.addPatterns parts).1) =
        some ((nfa.addPatterns parts).2.addEpsilons (links (nfa.addPatterns parts).1)) := by
      refine addEpsilons?_eq fun e member => ?_
      obtain ⟨⟨f, inList, source⟩, -⟩ := mem_links member
      exact source ▸ (all.place f inList).2.2
    simp only [addPattern?, addPattern, addPatterns?_eq parts nfa, bind, Option.bind_some,
      linked, chain_eq, addEpsilon?_eq (place_addEnds _).1.2]
    cases (nfa.addPatterns parts).1.head? with
    | none => rfl
    | some first => cases (nfa.addPatterns parts).1.getLast? <;> rfl
  | .alt branches, nfa => by
    obtain ⟨start, accept⟩ := place_addEnds nfa
    simp only [addPattern?, addPattern, addBranches?_eq branches nfa.addEnds.2 start.2 accept.2]
    rfl
  | .star body, nfa => by
    simp only [addPattern?, addPattern, addPattern?_eq body, bind, Option.bind_some]
    rw [(builds_addPattern body nfa.addEnds.2).addEpsilons?_eq (by simp)]
    rfl
  | .plus body, nfa => by
    simp only [addPattern?, addPattern, addPattern?_eq body, bind, Option.bind_some]
    rw [(builds_addPattern body nfa.addEnds.2).addEpsilons?_eq (by simp)]
    rfl
  | .opt body, nfa => by
    simp only [addPattern?, addPattern, addPattern?_eq body, bind, Option.bind_some]
    rw [(builds_addPattern body nfa.addEnds.2).addEpsilons?_eq (by simp)]
    rfl

theorem addPatterns?_eq : (parts : List Pattern) → (nfa : Nfa) →
    nfa.addPatterns? parts = some (nfa.addPatterns parts)
  | [], _ => rfl
  | p :: rest, nfa => by
    simp only [addPatterns?, addPatterns, addPattern?_eq p, addPatterns?_eq rest, bind,
      Option.bind_some]
    rfl

theorem addBranches?_eq : (branches : List Pattern) → (nfa : Nfa) → {ends : Fragment} →
    ends.start < nfa.states.size → ends.accept < nfa.states.size →
    nfa.addBranches? ends branches = some (nfa.addBranches ends branches)
  | [], _, _, _, _ => rfl
  | p :: rest, nfa, ends, start, accept => by
    have first := builds_addPattern p nfa
    have start := Nat.lt_of_lt_of_le start first.size
    have accept := Nat.lt_of_lt_of_le accept first.size
    have later := addBranches?_eq rest (((nfa.addPattern p).2.addEpsilon ends.start
      (nfa.addPattern p).1.start).addEpsilon (nfa.addPattern p).1.accept ends.accept)
      (by simpa using start) (by simpa using accept)
    simp only [addBranches?, addBranches, addPattern?_eq p, bind, Option.bind_some]
    rw [addEpsilons?_eq (by simp [start, first.accept.2])]
    exact later

end

theorem compile?_eq (nfa : Nfa) (t : TokenPattern) : nfa.compile? t = some (nfa.compile t) := by
  rw [compile?, compile]
  cases Pattern.parse t.pattern with
  | error e => rfl
  | ok p =>
    have accept := (builds_addPattern p nfa).accept.2
    simp only [addPattern?_eq p, bind, Option.bind_some, addToken?,
      Array.getElem?_eq_getElem accept, Option.map_some]
    rfl

end Lexer.Nfa

def lexerNfa? (g : Grammar) : Option (Lexer.Nfa × Report) :=
  g.tokens.foldlM (fun (nfa, report) t => do
    match ← nfa.compile? t with
    | .ok (_, nfa') => return (nfa', report)
    | .error e =>
      let name ← g.terminalName? t.terminal
      return (nfa, report ++ [{
        kind := .invalidPattern
        message := "token `" ++ name ++ "': pattern \"" ++ t.pattern ++ "\": " ++ e.message
        symbol := some (.terminal t.terminal) }])) (.empty, [])

theorem lexerNfa?_eq {g : Grammar} (closed : g.Closed) : lexerNfa? g = some (lexerNfa g) := by
  refine (foldlM_eq (P := fun _ => True) (fun made t member _ => ⟨?_, trivial⟩) trivial).1
  dsimp only
  rw [Lexer.Nfa.compile?_eq]
  simp only [bind, Option.bind_some]
  cases made.1.compile t with
  | error e =>
    dsimp only
    rw [Grammar.terminalName?_eq (closed.patterned t member)]
    rfl
  | ok result => rfl

end Lalr
