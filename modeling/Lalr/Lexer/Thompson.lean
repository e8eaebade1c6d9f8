import Lalr.Lexer.Nfa
import Lalr.Lexer.PatternParser
import Lalr.Grammar.Basic

/-! The automaton of a pattern, built beside whatever an automaton already holds. Every part
of the pattern becomes a fragment with an entry and an exit of its own. -/
namespace Lalr.Lexer

namespace Nfa

def addEnds (nfa : Nfa) : Fragment × Nfa :=
  let (start, nfa) := nfa.addState
  let (accept, nfa) := nfa.addState
  (⟨start, accept⟩, nfa)

def chain (nfa : Nfa) : List Fragment → Nfa
  | f :: g :: rest => (nfa.addEpsilon f.accept g.start).chain (g :: rest)
  | _ => nfa

mutual

def addPattern (nfa : Nfa) : Pattern → Fragment × Nfa
  | .bytes set =>
    let (f, nfa) := nfa.addEnds
    (f, nfa.addEdge f.start set f.accept)
  | .cat parts =>
    let (fragments, nfa) := nfa.addPatterns parts
    let nfa := nfa.chain fragments
    match fragments.head?, fragments.getLast? with
    | some first, some last => (⟨first.start, last.accept⟩, nfa)
    | _, _ =>
      let (f, nfa) := nfa.addEnds
      (f, nfa.addEpsilon f.start f.accept)
  | .alt branches =>
    let (f, nfa) := nfa.addEnds
    (f, nfa.addBranches f branches)
  | .star body =>
    let (f, nfa) := nfa.addEnds
    let (inner, nfa) := nfa.addPattern body
    (f, (((nfa.addEpsilon f.start inner.start).addEpsilon f.start f.accept).addEpsilon
      inner.accept inner.start).addEpsilon inner.accept f.accept)
  | .plus body =>
    let (f, nfa) := nfa.addEnds
    let (inner, nfa) := nfa.addPattern body
    (f, ((nfa.addEpsilon f.start inner.start).addEpsilon inner.accept inner.start).addEpsilon
      inner.accept f.accept)
  | .opt body =>
    let (f, nfa) := nfa.addEnds
    let (inner, nfa) := nfa.addPattern body
    (f, ((nfa.addEpsilon f.start inner.start).addEpsilon f.start f.accept).addEpsilon
      inner.accept f.accept)

def addPatterns (nfa : Nfa) : List Pattern → List Fragment × Nfa
  | [] => ([], nfa)
  | p :: rest =>
    let (f, nfa) := nfa.addPattern p
    let (fragments, nfa) := nfa.addPatterns rest
    (f :: fragments, nfa)

def addBranches (nfa : Nfa) (ends : Fragment) : List Pattern → Nfa
  | [] => nfa
  | p :: rest =>
    let (f, nfa) := nfa.addPattern p
    ((nfa.addEpsilon ends.start f.start).addEpsilon f.accept ends.accept).addBranches ends rest

end

/-- Add the automaton of a token. A pattern that is not well formed adds nothing. -/
def compile (nfa : Nfa) (t : TokenPattern) : Except PatternError (Fragment × Nfa) :=
  match Pattern.parse t.pattern with
  | .error e => .error e
  | .ok p =>
    let (f, nfa) := nfa.addPattern p
    .ok (f, nfa.addToken f ⟨t.terminal, t.priority⟩)

end Nfa
end Lalr.Lexer
