import Lalr.Proofs.Lexer.Lexemes

/-! The parser of patterns against their spelling. Reading forward, an assembly records the text
before it: finished branches, the parts of the current one, and around them the groups that are
open. Conversely the text of each construct takes an assembly to the one that has it built. -/
namespace Lalr.Lexer

open Spelling

variable {w v : List Char} {k : Cursor} {p : Pattern} {bs : List Pattern}

/-! ## What has been read -/

namespace Level

inductive Finished : List Char → List Pattern → Prop where
  | none : Finished [] []
  | some {w : List Char} {branches : List Pattern} :
      Branches w branches → Finished (w ++ ['|']) branches

inductive Current : List Char → List Pattern → Prop where
  | none : Current [] []
  | some {w : List Char} {parts : List Pattern} : Parts w parts → Current w parts

inductive Reads : List Char → Level → Prop where
  | mk {w v : List Char} {branches parts : List Pattern} :
      Finished w branches → Current v parts → Reads (w ++ v) ⟨branches, parts⟩

variable {l l' : Level}

theorem Reads.init : Reads [] {} := .mk .none .none

theorem Reads.add (h : l.Reads w) (spelled : Repeated v p) : (l.add p).Reads (w ++ v) := by
  obtain ⟨finished, current⟩ := h
  rw [List.append_assoc]
  refine .mk finished (.some ?_)
  cases current with
  | none => exact .one spelled
  | some parts => exact .more parts spelled

theorem Reads.repeatLast {r : Repetition} (h : l.Reads w) (repeated : l.repeatLast r = some l') :
    l'.Reads (w ++ [r.operator]) := by
  obtain ⟨finished, current⟩ := h
  obtain ⟨p, last, rfl⟩ := Option.map_eq_some_iff.1 repeated
  rw [List.append_assoc]
  refine .mk finished (.some ?_)
  cases current with
  | none => cases last
  | some parts =>
    cases parts with
    | one spelled =>
      obtain rfl := Option.some.inj last
      exact .one (.operator r spelled)
    | more before spelled =>
      obtain rfl : _ = p := by simpa using last
      simpa using Parts.more before (spelled.operator r)

theorem Reads.finishBranch (h : l.Reads w) (finish : l.finishBranch = some bs) :
    Branches w bs := by
  obtain ⟨finished, current⟩ := h
  cases current with
  | none => cases finish
  | some parts =>
    obtain rfl : _ ++ [Pattern.concat _] = bs := by
      unfold Level.finishBranch at finish
      split at finish
      · cases finish
      · exact Option.some.inj finish
    cases finished with
    | none => exact .one parts
    | some branches => simpa using Branches.more branches parts

end Level

namespace Assembly

/-- The text before the parentheses that are open, the innermost group first. -/
inductive Encloses : List Char → List (Nat × Level) → Prop where
  | top : Encloses [] []
  | group {w v : List Char} {l : Level} {offset : Nat} {enclosing : List (Nat × Level)} :
      Encloses w enclosing → l.Reads v → Encloses (w ++ v ++ ['(']) ((offset, l) :: enclosing)

inductive Reads : List Char → Assembly → Prop where
  | mk {w v : List Char} {l : Level} {enclosing : List (Nat × Level)} :
      Encloses w enclosing → l.Reads v → Reads (w ++ v) ⟨l, enclosing⟩

variable {a a' : Assembly}

/-- Each lexeme adds its text. -/
theorem Reads.feed {l : Lexeme} (h : a.Reads w) (chunk : Chunk v l) (fed : a.feed l = .ok a') :
    a'.Reads (w ++ v) := by
  obtain ⟨encloses, reads⟩ := h
  rw [List.append_assoc]
  unfold Assembly.feed at fed
  cases chunk with
  | leaf spelled =>
    cases fed
    exact .mk encloses (reads.add (.atom (.leaf spelled)))
  | repetition r offset =>
    dsimp only at fed
    split at fed
    · next level repeated =>
      cases fed
      exact .mk encloses (reads.repeatLast repeated)
    · cases fed
  | openGroup offset =>
    cases fed
    simpa using Reads.mk (.group encloses reads) .init
  | bar offset =>
    dsimp only at fed
    split at fed
    · next branches finish =>
      cases fed
      simpa using Reads.mk encloses (.mk (.some (reads.finishBranch finish)) .none)
    · cases fed
  | closeGroup offset =>
    dsimp only at fed
    split at fed
    · cases fed
    · next branches finish =>
      cases encloses with
      | top => cases fed
      | group encloses outer =>
        cases fed
        have group := Atom.group (reads.finishBranch finish)
        simpa using Reads.mk encloses (outer.add (.atom group))

/-- A run over lexemes adds the text that they are cut from. -/
theorem Reads.run (h : a.Reads w) (run : (lexemes k).foldlM Assembly.feed a = .ok a') :
    a'.Reads (w ++ k.ahead) := by
  fun_induction lexemes k generalizing a w with
  | case1 k ahead =>
    cases run
    simpa [ahead] using h
  | case2 k c rest ahead e failed => cases run
  | case3 k c rest ahead l k' next ih =>
    rw [List.foldlM_cons] at run
    cases fed : a.feed l with
    | error e =>
      rw [fed] at run
      cases run
    | ok a₁ =>
      rw [fed] at run
      obtain ⟨v, front, chunk⟩ := Lexeme.next_sound next
      rw [ahead, front, ← List.append_assoc]
      exact ih (h.feed chunk fed) run

theorem Reads.finish {length : Nat} (h : a.Reads w) (finish : a.finish length = .ok p) :
    Spells w p := by
  obtain ⟨encloses, reads⟩ := h
  unfold Assembly.finish at finish
  split at finish
  · cases finish
  · next branches last =>
    cases encloses with
    | group => cases finish
    | top =>
      cases finish
      exact ⟨branches, reads.finishBranch last, rfl⟩

end Assembly

/-- What is parsed is spelled as it should be. -/
theorem Pattern.spells_of_parse {source : String} (parsed : Pattern.parse source = .ok p) :
    Spells source.toList p := by
  unfold Pattern.parse at parsed
  split at parsed
  · cases parsed
  · cases run : (lexemes { ahead := source.toList }).foldlM Assembly.feed {} with
    | error e =>
      rw [run] at parsed
      cases parsed
    | ok a =>
      rw [run] at parsed
      have reads : a.Reads source.toList := (Assembly.Reads.mk .top .init).run run
      exact reads.finish parsed

/-! ## What is read -/

namespace Level

variable {l m n : Level}

/-- Whatever follows, and inside whatever groups, the text takes one level to the other. -/
def Feeds (w : List Char) (l m : Level) : Prop := ∀ enclosing rest offset, ∃ offset',
  (lexemes ⟨w ++ rest, offset⟩).foldlM Assembly.feed ⟨l, enclosing⟩ =
    (lexemes ⟨rest, offset'⟩).foldlM Assembly.feed ⟨m, enclosing⟩

theorem Feeds.trans (first : Feeds v l m) (second : Feeds w m n) : Feeds (v ++ w) l n := by
  intro enclosing rest offset
  obtain ⟨offset', eq⟩ := first enclosing (w ++ rest) offset
  obtain ⟨offset'', eq'⟩ := second enclosing rest offset'
  exact ⟨offset'', by rw [List.append_assoc, eq, eq']⟩

theorem feeds_leaf (spelled : Leaf w p) (l : Level) : Feeds w l (l.add p) := by
  intro enclosing rest offset
  obtain ⟨offset', eq⟩ := spelled.lexemes_eq rest offset
  exact ⟨offset', by rw [eq]; rfl⟩

theorem repeatLast_add (l : Level) (p : Pattern) (r : Repetition) :
    (l.add p).repeatLast r = some (l.add (r.apply p)) := by
  simp [repeatLast, add]

theorem feeds_operator (l : Level) (p : Pattern) (r : Repetition) :
    Feeds [r.operator] (l.add p) (l.add (r.apply p)) := by
  intro enclosing rest offset
  refine ⟨offset + r.operator.utf8Size, ?_⟩
  have next : lexemes ⟨r.operator :: rest, offset⟩ =
      .repetition r offset :: lexemes ⟨rest, offset + r.operator.utf8Size⟩ := by
    cases r <;> exact lexemes_of_next rfl
  rw [List.singleton_append, next, List.foldlM_cons, Assembly.feed, repeatLast_add]
  rfl

theorem finishBranch_of_parts {parts : List Pattern} (filled : parts ≠ []) (bs : List Pattern) :
    finishBranch ⟨bs, parts⟩ = some (bs ++ [.concat parts]) := by
  simp [finishBranch, filled]

theorem feeds_bar {branches : List Pattern} (finish : l.finishBranch = some branches) :
    Feeds ['|'] l ⟨branches, []⟩ := by
  intro enclosing rest offset
  refine ⟨offset + '|'.utf8Size, ?_⟩
  rw [List.singleton_append, lexemes_of_next rfl, List.foldlM_cons, Assembly.feed, finish]
  rfl

theorem feeds_group (finish : m.finishBranch = some bs) (inside : Feeds w {} m) (l : Level) :
    Feeds ('(' :: w ++ [')']) l (l.add (.choice bs)) := by
  intro enclosing rest offset
  obtain ⟨offset', eq⟩ := inside ((offset, l) :: enclosing) (')' :: rest) (offset + '('.utf8Size)
  refine ⟨offset' + ')'.utf8Size, ?_⟩
  rw [List.append_assoc, List.cons_append, lexemes_of_next rfl, List.foldlM_cons]
  refine Eq.trans eq ?_
  rw [lexemes_of_next rfl, List.foldlM_cons, Assembly.feed, finish]
  rfl

end Level

namespace Spelling

open Level

theorem Parts.ne_nil {parts : List Pattern} (h : Parts w parts) : parts ≠ [] := by
  cases h <;> simp

mutual

/-- The branches before the last are finished, and the parts of the last are there. -/
theorem Branches.feeds : ∀ {w bs}, Branches w bs → ∃ l, Feeds w {} l ∧ l.finishBranch = some bs
  | _, _, .one parts =>
    ⟨_, parts.feeds [], finishBranch_of_parts parts.ne_nil []⟩
  | _, _, .more before parts => by
    obtain ⟨l, feeds, finish⟩ := before.feeds
    refine ⟨_, ?_, finishBranch_of_parts parts.ne_nil _⟩
    exact feeds.trans ((feeds_bar finish).trans (parts.feeds _))

theorem Parts.feeds : ∀ {w parts}, Parts w parts → ∀ bs, Feeds w ⟨bs, []⟩ ⟨bs, parts⟩
  | _, _, .one spelled, bs => spelled.feeds ⟨bs, []⟩
  | _, _, .more before spelled, bs => (before.feeds bs).trans (spelled.feeds ⟨bs, _⟩)

theorem Repeated.feeds : ∀ {w p}, Repeated w p → ∀ l, Feeds w l (l.add p)
  | _, _, .atom spelled, l => spelled.feeds l
  | _, _, .operator r spelled, l => (spelled.feeds l).trans (feeds_operator l _ r)

theorem Atom.feeds : ∀ {w p}, Atom w p → ∀ l, Feeds w l (l.add p)
  | _, _, .leaf spelled, l => feeds_leaf spelled l
  | _, _, .group branches, l => by
    obtain ⟨m, feeds, finish⟩ := branches.feeds
    exact feeds_group finish feeds l

end

end Spelling

/-- What is spelled as it should be is parsed. -/
theorem Pattern.parse_of_spells {source : String} (h : Spells source.toList p) :
    Pattern.parse source = .ok p := by
  obtain ⟨branches, spelled, rfl⟩ := h
  obtain ⟨l, feeds, finish⟩ := spelled.feeds
  obtain ⟨offset, run⟩ := feeds [] [] 0
  -- At the end of the text no lexeme is left.
  have done : lexemes ⟨[], offset⟩ = [] := by simp [lexemes]
  rw [List.append_nil, done] at run
  have filled : ¬source.isEmpty := by
    -- The empty text would leave the empty level, which has no branch to finish.
    intro empty
    obtain rfl := String.isEmpty_iff.1 empty
    have none : lexemes ⟨[], 0⟩ = [] := by simp [lexemes]
    rw [String.toList_empty, none] at run
    cases run
    cases finish
  unfold Pattern.parse
  rw [if_neg filled]
  have : (lexemes ⟨source.toList, 0⟩).foldlM Assembly.feed {} = .ok ⟨l, []⟩ := run
  rw [this]
  show Assembly.finish ⟨l, []⟩ _ = _
  rw [Assembly.finish, finish]

/-- The parser accepts the patterns that are spelled as they should be, and no others, and a text
spells nothing but the pattern that is built from it. -/
theorem Pattern.parse_iff (source : String) :
    (∀ p, Pattern.parse source = .ok p ↔ Spells source.toList p) ∧
      ∀ p q, Spells source.toList p → Spells source.toList q → p = q := by
  have exactly p : Pattern.parse source = .ok p ↔ Spells source.toList p :=
    ⟨spells_of_parse, parse_of_spells⟩
  refine ⟨exactly, fun p q first second => ?_⟩
  rw [← exactly] at first second
  cases first.symm.trans second
  rfl

end Lalr.Lexer
