import Lalr.Source.Scanner

/-! What stands at the front of a text: one case for each way to find a piece or to find none, and
what scanning does with it. -/
namespace Lalr.Source

variable {c : Char} {body cs used rest after : List Char} {t : Token}

inductive Front : List Char → Piece → Prop
  | space {c : Char} {rest : List Char} (space : isBlank c = true) :
      Front (c :: rest) (.blank (c :: rest.takeWhile isBlank) (rest.dropWhile isBlank))
  | line {cs : List Char} : Front ('/' :: '/' :: cs) (commentPiece ['/', '/'] (lineComment cs))
  | block {cs : List Char} :
      Front ('/' :: '*' :: cs) (commentPiece ['/', '*'] (blockComment 0 cs))
  | pattern {cs body after : List Char} (found : patternBody cs = some (body, after)) :
      Front ('"' :: cs) (.token (.pattern (.ofList body)) ('"' :: body ++ ['"']) after)
  | openPattern {cs : List Char} (absent : patternBody cs = none) : Front ('"' :: cs) (.broken [])
  | code {cs body after : List Char} (found : codeBody cs = some (body, after)) :
      Front ('[' :: '*' :: cs) (.token (.code (.ofList (Text.trimmed body)))
        ('[' :: '*' :: body ++ ['*', ']']) after)
  | openCode {cs : List Char} (absent : codeBody cs = none) : Front ('[' :: '*' :: cs) (.broken [])
  | identifier {c : Char} {rest : List Char} (start : Text.isIdentifierStart c = true) :
      Front (c :: rest) (.token (.identifier (.ofList (c :: rest.takeWhile Text.isXidContinue)))
        (c :: rest.takeWhile Text.isXidContinue) (rest.dropWhile Text.isXidContinue))
  | fixed {spelling after : List Char} {t : Token} (member : (spelling, t) ∈ fixedTokens) :
      Front (spelling ++ after) (.token t spelling after)
  | nothing {c : Char} {rest : List Char} (space : isBlank c = false)
      (line : ¬ ['/', '/'] <+: c :: rest) (block : ¬ ['/', '*'] <+: c :: rest) (quote : c ≠ '"')
      (code : ¬ ['[', '*'] <+: c :: rest) (start : Text.isIdentifierStart c = false)
      (fixed : ∀ spelling t, (spelling, t) ∈ fixedTokens → ¬ spelling <+: c :: rest) :
      Front (c :: rest) (.broken [])

/-! ## Tokens of fixed spelling -/

def fixedHeads : List Char := ['\x7b', '\x7d', '@', ':', '=', ',', ';', '|']

theorem head_of_mem_fixedTokens {spelling : List Char} (member : (spelling, t) ∈ fixedTokens) :
    ∃ head ∈ fixedHeads, ∃ tail, spelling = head :: tail := by
  have heads : fixedTokens.all fun e => e.1.head?.any fixedHeads.contains := by decide
  obtain ⟨head, first, isHead⟩ := (Option.any_eq_true _ _).1 (List.all_eq_true.1 heads _ member)
  exact ⟨head, by simpa using isHead, List.head?_eq_some_iff.1 first⟩

/-- No other piece begins like a token of fixed spelling. -/
theorem of_mem_fixedHeads (member : c ∈ fixedHeads) : isBlank c = false ∧ c ≠ '/' ∧ c ≠ '"' ∧
    c ≠ '[' ∧ Text.isIdentifierStart c = false := by
  have apart : fixedHeads.all fun d =>
    !isBlank d && d != '/' && d != '"' && d != '[' && !Text.isIdentifierStart d := by decide
  simpa [and_assoc] using List.all_eq_true.1 apart c member

/-- No spelling begins another one. -/
theorem fixedTokens_apart {spelling spelling' : List Char} {t' : Token}
    (member : (spelling, t) ∈ fixedTokens) (member' : (spelling', t') ∈ fixedTokens)
    (front : spelling <+: spelling') : spelling = spelling' ∧ t = t' := by
  have apart : ∀ e ∈ fixedTokens, ∀ e' ∈ fixedTokens, e.1 <+: e'.1 → e = e' := by decide
  exact Prod.mk.inj (apart _ member _ member' front)

/-- No other piece begins like an identifier, either. -/
theorem of_isIdentifierStart (start : Text.isIdentifierStart c = true) : isBlank c = false ∧
    c ≠ '/' ∧ c ≠ '"' ∧ c ≠ '[' ∧ c ∉ fixedHeads := by
  have other {d : Char} (h : Text.isIdentifierStart d = false) : c ≠ d := by
    rintro rfl
    exact absurd (start.symm.trans h) (by decide)
  refine ⟨?_, other (by decide), other (by decide), other (by decide), fun member => ?_⟩
  case refine_1 =>
    have space : c ≠ ' ' := other (by decide)
    have tab : c ≠ '\t' := other (by decide)
    have carriage : c ≠ '\r' := other (by decide)
    have feed : c ≠ '\n' := other (by decide)
    simp [isBlank, space, tab, carriage, feed]
  case refine_2 => exact other (of_mem_fixedHeads member).2.2.2.2 rfl

theorem not_prefix_of_fixed {spelling : List Char} (member : (spelling, t) ∈ fixedTokens)
    (other : c ∉ fixedHeads) : ¬ spelling <+: c :: rest := by
  obtain ⟨head, isHead, tail, rfl⟩ := head_of_mem_fixedTokens member
  rintro ⟨after, split⟩
  exact other ((List.cons.inj split).1 ▸ isHead)

theorem fixedToken?_eq_none_iff : fixedToken? cs = none ↔
    ∀ spelling t, (spelling, t) ∈ fixedTokens → ¬ spelling <+: cs := by
  rw [fixedToken?, Option.map_eq_none_iff, List.find?_eq_none]
  simp

theorem fixedToken?_eq_some_iff {spelling : List Char} : fixedToken? cs = some (t, spelling) ↔
    (spelling, t) ∈ fixedTokens ∧ spelling <+: cs := by
  constructor
  · intro found
    obtain ⟨member, split⟩ := fixedToken?_split found
    exact ⟨member, _, split.symm⟩
  · rintro ⟨member, front⟩
    cases found : fixedToken? cs with
    | none => exact absurd front (fixedToken?_eq_none_iff.1 found _ _ member)
    | some other =>
      obtain ⟨t', spelling'⟩ := other
      obtain ⟨member', split⟩ := fixedToken?_split found
      have front' : spelling' <+: cs := ⟨_, split.symm⟩
      rcases List.prefix_or_prefix_of_prefix front front' with before | before
      · obtain ⟨rfl, rfl⟩ := fixedTokens_apart member member' before
        rfl
      · obtain ⟨rfl, rfl⟩ := fixedTokens_apart member' member before
        rfl

/-! ## Patterns and code -/

/-- Two characters do not stand in front, in the form in which a match asks for them. -/
theorem not_pair_iff {a b : Char} :
    ¬ [a, b] <+: c :: cs ↔ ∀ rest, c = a → cs = b :: rest → False := by
  constructor
  · rintro apart rest rfl rfl
    exact apart ⟨rest, rfl⟩
  · rintro apart ⟨rest, split⟩
    obtain ⟨rfl, rfl⟩ := List.cons.inj split
    exact apart rest rfl rfl

/-- A backslash stands before each double quote, and is not itself behind one. -/
inductive Escaped : List Char → Prop
  | nil : Escaped []
  | pair {c : Char} {cs : List Char} : Escaped cs → Escaped ('\\' :: c :: cs)
  | char {c : Char} {cs : List Char} : c ≠ '"' → c ≠ '\\' → Escaped cs → Escaped (c :: cs)

theorem patternBody_eq_some_iff : patternBody cs = some (body, after) ↔
    cs = body ++ '"' :: after ∧ Escaped body := by
  constructor
  · intro found
    refine ⟨patternBody_split found, ?_⟩
    fun_induction patternBody cs generalizing body with
    | case1 =>
      obtain ⟨rfl, -⟩ := Prod.mk.inj (Option.some.inj found)
      exact .nil
    | case2 c rest ih =>
      obtain ⟨⟨more, _⟩, inside, split⟩ := Option.map_eq_some_iff.1 found
      obtain ⟨rfl, rfl⟩ := Prod.mk.inj split
      exact .pair (ih inside)
    | case3 c rest quote pair ih =>
      obtain ⟨⟨more, _⟩, inside, split⟩ := Option.map_eq_some_iff.1 found
      obtain ⟨rfl, rfl⟩ := Prod.mk.inj split
      refine .char quote ?_ (ih inside)
      rintro rfl
      cases rest with
      | nil => cases inside
      | cons d rest => exact pair d rest rfl rfl
    | case4 => cases found
  · rintro ⟨rfl, escaped⟩
    induction escaped with
    | nil => rfl
    | pair _ ih => simp [patternBody, ih]
    | char quote backslash _ ih => simp [patternBody, backslash, ih]

theorem codeBody_eq_some_iff : codeBody cs = some (body, after) ↔
    cs = body ++ '*' :: ']' :: after ∧ ¬ ['*', ']'] <:+: body := by
  constructor
  · intro found
    refine ⟨codeBody_split found, ?_⟩
    fun_induction codeBody cs generalizing body with
    | case1 =>
      obtain ⟨rfl, -⟩ := Prod.mk.inj (Option.some.inj found)
      simp
    | case2 c rest other ih =>
      obtain ⟨⟨more, _⟩, inside, split⟩ := Option.map_eq_some_iff.1 found
      obtain ⟨rfl, rfl⟩ := Prod.mk.inj split
      rw [List.infix_cons_iff]
      rintro (front | later)
      · have longer : c :: more <+: c :: rest := by
          rw [codeBody_split inside, ← List.cons_append]
          exact List.prefix_append ..
        exact not_pair_iff.2 other (front.trans longer)
      · exact ih inside later
    | case3 => cases found
  · rintro ⟨rfl, absent⟩
    induction body with
    | nil => rfl
    | cons c body ih =>
      rw [List.infix_cons_iff, not_or] at absent
      have other : ¬ ['*', ']'] <+: c :: (body ++ '*' :: ']' :: after) := by
        cases body with
        | nil => simp [List.cons_prefix_cons]
        | cons d body => simpa [List.cons_prefix_cons] using absent.1
      rw [List.cons_append, codeBody.eq_2 _ _ (not_pair_iff.1 other), ih absent.2]
      rfl

/-! ## Pieces -/

theorem Piece.next_front (c : Char) (rest : List Char) : Front (c :: rest) (Piece.next c rest) := by
  unfold Piece.next
  split
  next space => exact .space space
  next space =>
  split
  next slash =>
    subst slash
    split
    next cs => exact .line
    next cs => exact .block
    next line block =>
      have bracket : ¬ ['[', '*'] <+: '/' :: rest := not_pair_iff.2 fun _ other => by cases other
      exact .nothing (by decide) (not_pair_iff.2 fun cs _ => line cs)
        (not_pair_iff.2 fun cs _ => block cs) (by decide) bracket (by decide)
        fun _ _ member => not_prefix_of_fixed member (by decide)
  next slash =>
  split
  next quote =>
    subst quote
    split
    next body after found => exact .pattern found
    next absent => exact .openPattern absent
  next quote =>
  split
  next bracket =>
    subst bracket
    split
    next cs =>
      split
      next body after found => exact .code found
      next absent => exact .openCode absent
    next code =>
      have slash {b : Char} : ¬ ['/', b] <+: '[' :: rest :=
        not_pair_iff.2 fun _ other => by cases other
      exact .nothing (by decide) slash slash (by decide) (not_pair_iff.2 fun cs _ => code cs)
        (by decide) fun _ _ member => not_prefix_of_fixed member (by decide)
  next bracket =>
  split
  next start => exact .identifier start
  next start =>
  split
  next t spelling found =>
    obtain ⟨member, split⟩ := fixedToken?_split found
    have front : Front (spelling ++ (c :: rest).drop spelling.length)
      (.token t spelling ((c :: rest).drop spelling.length)) := .fixed member
    rwa [← split] at front
  next absent =>
    exact .nothing (by simpa using space) (not_pair_iff.2 fun _ other => absurd other slash)
      (not_pair_iff.2 fun _ other => absurd other slash) quote
      (not_pair_iff.2 fun _ other => absurd other bracket) (by simpa using start)
      (fixedToken?_eq_none_iff.1 absent)

theorem commentPiece_ne_token {opening : List Char}
    (result : Except (List Char) (List Char × List Char)) :
    commentPiece opening result ≠ .token t used after := by
  cases result <;> exact nofun

theorem Front.next_eq {piece : Piece} (front : Front (c :: rest) piece) :
    Piece.next c rest = piece := by
  generalize split : c :: rest = text at front
  cases front with
  | space space =>
    obtain ⟨rfl, rfl⟩ := List.cons.inj split
    unfold Piece.next
    rw [if_pos space]
  | line | block | pattern found | openPattern found | code found | openCode found =>
    obtain ⟨rfl, rfl⟩ := List.cons.inj split
    simp [Piece.next, isBlank, *]
  | identifier start =>
    obtain ⟨rfl, rfl⟩ := List.cons.inj split
    obtain ⟨space, slash, quote, bracket, -⟩ := of_isIdentifierStart start
    simp [Piece.next, space, slash, quote, bracket, start]
  | @fixed spelling after t member =>
    have found : fixedToken? (c :: rest) = some (t, spelling) :=
      fixedToken?_eq_some_iff.2 ⟨member, after, split.symm⟩
    obtain ⟨head, isHead, tail, rfl⟩ := head_of_mem_fixedTokens member
    obtain ⟨rfl, rfl⟩ : c = head ∧ rest = tail ++ after := List.cons.inj split
    obtain ⟨space, slash, quote, bracket, start⟩ := of_mem_fixedHeads isHead
    simp [Piece.next, space, slash, quote, bracket, start, found]
  | nothing space line block quote code start fixed =>
    obtain ⟨rfl, rfl⟩ := List.cons.inj split
    have absent := fixedToken?_eq_none_iff.2 fixed
    rw [not_pair_iff] at line block code
    unfold Piece.next
    grind

theorem Piece.next_eq_iff {piece : Piece} :
    Piece.next c rest = piece ↔ Front (c :: rest) piece := by
  constructor
  · rintro rfl
    exact Piece.next_front c rest
  · exact Front.next_eq

theorem split_of_blank (found : Piece.next c rest = .blank used after) :
    c :: rest = used ++ after ∧ used ≠ [] :=
  (found ▸ Piece.next_splits c rest : (Piece.blank used after).Splits (c :: rest))

theorem split_of_token (found : Piece.next c rest = .token t used after) :
    c :: rest = used ++ after ∧ used ≠ [] :=
  (found ▸ Piece.next_splits c rest : (Piece.token t used after).Splits (c :: rest))

/-! ## Scanning -/

theorem scanFrom_of_blank (found : Piece.next c rest = .blank used after) (l : Location) :
    scanFrom l (c :: rest) = scanFrom (l.afterAll used) after := by
  rw [scanFrom]
  split <;> simp_all

theorem scanFrom_of_token (found : Piece.next c rest = .token t used after) (l : Location) :
    scanFrom l (c :: rest) = (⟨t, l, l.afterAll used⟩ :: (scanFrom (l.afterAll used) after).1,
      (scanFrom (l.afterAll used) after).2) := by
  rw [scanFrom]
  split <;> simp_all

theorem scanFrom_of_broken {passed : List Char} (found : Piece.next c rest = .broken passed)
    (l : Location) : scanFrom l (c :: rest) = ([], some (l.afterAll passed)) := by
  rw [scanFrom]
  split <;> simp_all

/-- Induction along the pieces of a text. -/
@[elab_as_elim]
theorem scan_induction {motive : Location → List Char → Prop} (l : Location) (cs : List Char)
    (nil : ∀ l, motive l [])
    (blank : ∀ l c rest used after, Piece.next c rest = .blank used after →
      motive (l.afterAll used) after → motive l (c :: rest))
    (token : ∀ l c rest t used after, Piece.next c rest = .token t used after →
      motive (l.afterAll used) after → motive l (c :: rest))
    (broken : ∀ l c rest passed, Piece.next c rest = .broken passed → motive l (c :: rest)) :
    motive l cs :=
  scanFrom.induct motive nil blank
    (fun l c rest t used after found _ _ _ => token l c rest t used after found) broken l cs

end Lalr.Source
