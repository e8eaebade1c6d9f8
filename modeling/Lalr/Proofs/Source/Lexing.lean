import Lalr.Proofs.Source.Blank
import Lalr.Proofs.Source.RuleSets

/-! Reading by the sets of rules gives the tokens and the fault that scanning gives. -/
namespace Lalr.Source

open Computability

variable {p : Char → Bool} {c : Char} {depth : Nat} {w cs used after body rest m passed : List Char}
  {rule : Rule} {mode : Mode} {l : Location} {s s' : State} {t : Token} {ts : List Located}
  {fault : Option Location}

/-! ## The words of the rules -/

theorem mem_one_star : w ∈ (one p)∗ ↔ ∀ c ∈ w, p c = true := by
  constructor
  · rintro ⟨parts, rfl, each⟩ c member
    obtain ⟨part, inParts, inPart⟩ := List.mem_flatten.1 member
    obtain ⟨d, allowed, rfl⟩ := each part inParts
    rwa [List.mem_singleton.1 inPart]
  · intro all
    refine ⟨w.map fun c => [c], by simp [← List.flatMap_def], ?_⟩
    intro part member
    obtain ⟨c, inWord, rfl⟩ := List.mem_map.1 member
    exact ⟨c, all c inWord, rfl⟩

theorem mem_one_mul {L : Language Char} : w ∈ one p * L ↔
    ∃ c w', p c = true ∧ w' ∈ L ∧ w = c :: w' := by
  rw [Language.mem_mul]
  constructor
  · rintro ⟨_, ⟨c, allowed, rfl⟩, w', inside, rfl⟩
    exact ⟨c, w', allowed, inside, rfl⟩
  · rintro ⟨c, w', allowed, inside, rfl⟩
    exact ⟨[c], ⟨c, allowed, rfl⟩, w', inside, rfl⟩

theorem mem_space : w ∈ Rule.space.language ↔ w ≠ [] ∧ ∀ c ∈ w, isBlank c = true := by
  rw [Rule.language, mem_one_mul]
  constructor
  · rintro ⟨c, w', space, spaces, rfl⟩
    exact ⟨List.cons_ne_nil _ _, List.forall_mem_cons.2 ⟨space, mem_one_star.1 spaces⟩⟩
  · rintro ⟨nonempty, spaces⟩
    obtain ⟨c, w', rfl⟩ := List.exists_cons_of_ne_nil nonempty
    obtain ⟨space, spaces⟩ := List.forall_mem_cons.1 spaces
    exact ⟨c, w', space, mem_one_star.2 spaces, rfl⟩

theorem mem_name : w ∈ Rule.name.language ↔ ∃ c w', Text.isIdentifierStart c = true ∧
    (∀ d ∈ w', Text.isXidContinue d = true) ∧ w = c :: w' := by
  rw [Rule.language, Language.mem_add, mem_one_mul, Language.mem_mul]
  constructor
  · rintro (⟨c, w', start, names, rfl⟩ | ⟨_, rfl, w', names, rfl⟩)
    · exact ⟨c, w', by simp [Text.isIdentifierStart, start], mem_one_star.1 names, rfl⟩
    · exact ⟨'_', w', rfl, mem_one_star.1 names, rfl⟩
  · rintro ⟨c, w', start, names, rfl⟩
    rw [Text.isIdentifierStart, Bool.or_eq_true, beq_iff_eq] at start
    rcases start with rfl | start
    · exact .inr ⟨['_'], rfl, w', mem_one_star.2 names, rfl⟩
    · exact .inl ⟨c, w', start, mem_one_star.2 names, rfl⟩

theorem mem_escape : w ∈ Rule.escape.language ↔ ∃ c, w = ['\\', c] := by
  rw [Rule.language, Language.mem_mul]
  constructor
  · rintro ⟨_, rfl, _, ⟨c, -, rfl⟩, rfl⟩
    exact ⟨c, rfl⟩
  · rintro ⟨c, rfl⟩
    exact ⟨['\\'], rfl, [c], ⟨c, rfl, rfl⟩, rfl⟩

theorem mem_closeLine : w ∈ Rule.closeLine.language ↔ LineEnd w := by
  have carriages {w : List Char} : w ∈ ({['\r']} : Language Char)∗ ↔
      ∃ k, w = List.replicate k '\r' := by
    constructor
    · rintro ⟨parts, rfl, each⟩
      have all : parts = List.replicate parts.length ['\r'] :=
        List.eq_replicate_of_mem each
      rw [all]
      exact ⟨parts.length, by simp⟩
    · rintro ⟨k, rfl⟩
      exact ⟨List.replicate k ['\r'], by simp, fun part => List.eq_of_mem_replicate⟩
  rw [Rule.language, Language.mem_add, Language.mem_mul]
  constructor
  · rintro (⟨_, returns, _, rfl, rfl⟩ | rfl)
    · obtain ⟨k, rfl⟩ := carriages.1 returns
      exact .feed k
    · exact .carriage
  · rintro (k | _)
    · exact .inl ⟨_, carriages.2 ⟨k, rfl⟩, ['\n'], rfl, rfl⟩
    · exact .inr rfl

/-! ## Which rule matches -/

/-- Where rules for words come first and rules for any character last, a word is taken by its rule
if no other of the first rules matches. -/
theorem takes_word (special chars : List Rule) (rules : mode.rules = special ++ chars)
    (any : ∀ other ∈ chars, other.language = one fun _ => true) (member : rule ∈ special)
    (here : w ∈ rule.language) (nonempty : w ≠ []) (split : cs = w ++ after)
    (only : ∀ other ∈ special, ∀ w' ∈ other.language, w' <+: cs →
      other = rule ∧ w'.length ≤ w.length) : Takes mode cs w after rule where
  split := split
  ne_nil := nonempty
  longest := by
    intro other inside longer matches' front
    rw [rules] at inside
    rcases List.mem_append.1 inside with inside | inside
    · exact (only other inside longer matches' front).2
    · obtain ⟨c, -, rfl⟩ := any other inside ▸ matches'
      exact List.length_pos_of_ne_nil nonempty
  first := by
    classical
    rw [rules, List.find?_append]
    cases found : special.find? fun other => w ∈ other.language with
    | none => simpa [here] using List.find?_eq_none.1 found rule member
    | some other =>
      have matches' : w ∈ other.language := by simpa using List.find?_some found
      rw [(only other (List.mem_of_find?_eq_some found) w matches' ⟨after, split.symm⟩).1]
      rfl

/-- Otherwise one character is taken. -/
theorem takes_char (special : List Rule) (rules : mode.rules = special ++ [rule])
    (any : rule.language = one fun _ => true)
    (other : ∀ other ∈ special, ∀ w ∈ other.language, ¬ w <+: c :: after) :
    Takes mode (c :: after) [c] after rule where
  split := rfl
  ne_nil := List.cons_ne_nil _ _
  longest := by
    intro r inside longer matches' front
    rw [rules] at inside
    rcases List.mem_append.1 inside with inside | inside
    · exact absurd front (other r inside longer matches')
    · rw [List.mem_singleton.1 inside, any] at matches'
      obtain ⟨d, -, rfl⟩ := matches'
      exact Nat.le_refl 1
  first := by
    classical
    have here : [c] ∈ rule.language := any ▸ ⟨c, rfl, rfl⟩
    rw [rules, List.find?_append, List.find?_eq_none.2]
    · simp [here]
    · intro r inside matches'
      exact other r inside [c] (by simpa using matches') (List.prefix_append [c] after)

theorem stuck_of_nil (other : mode ≠ .init) : State.Stuck ⟨mode, depth, l, m, []⟩ :=
  ⟨fun mode => absurd mode other, fun _ _ _ takes =>
    takes.ne_nil (List.append_eq_nil_iff.1 takes.split.symm).1⟩

/-! ## Inside patterns, code and comments -/

theorem takes_closePattern : Takes .pattern ('"' :: after) ['"'] after .closePattern := by
  refine takes_word [.closePattern, .escape] [.inPattern] rfl (by simp [Rule.language]) (by simp)
    rfl (List.cons_ne_nil _ _) rfl (List.forall_mem_cons.2 ⟨?_, List.forall_mem_singleton.2 ?_⟩)
  · rintro _ rfl -
    exact ⟨rfl, Nat.le_refl 1⟩
  · intro w escape front
    obtain ⟨c, rfl⟩ := mem_escape.1 escape
    simp [List.cons_prefix_cons] at front

theorem takes_escape : Takes .pattern ('\\' :: c :: after) ['\\', c] after .escape := by
  refine takes_word [.closePattern, .escape] [.inPattern] rfl (by simp [Rule.language]) (by simp)
    (mem_escape.2 ⟨c, rfl⟩) (List.cons_ne_nil _ _) rfl
    (List.forall_mem_cons.2 ⟨?_, List.forall_mem_singleton.2 ?_⟩)
  · rintro _ rfl front
    simp [List.cons_prefix_cons] at front
  · intro w escape front
    obtain ⟨d, rfl⟩ := mem_escape.1 escape
    exact ⟨rfl, Nat.le_refl 2⟩

theorem takes_inPattern (quote : c ≠ '"') (pair : ∀ d rest, c = '\\' → after = d :: rest → False) :
    Takes .pattern (c :: after) [c] after .inPattern := by
  refine takes_char [.closePattern, .escape] rfl rfl
    (List.forall_mem_cons.2 ⟨?_, List.forall_mem_singleton.2 ?_⟩)
  · rintro _ rfl front
    exact quote (List.cons_prefix_cons.1 front).1.symm
  · intro w escape
    obtain ⟨d, rfl⟩ := mem_escape.1 escape
    exact not_pair_iff.2 (pair d)

theorem takes_closeCode : Takes .code ('*' :: ']' :: after) ['*', ']'] after .closeCode := by
  refine takes_word [.closeCode] [.inCode] rfl (by simp [Rule.language]) (by simp) rfl
    (List.cons_ne_nil _ _) rfl (List.forall_mem_singleton.2 ?_)
  rintro _ rfl -
  exact ⟨rfl, Nat.le_refl 2⟩

theorem takes_inCode (other : ∀ rest, c = '*' → after = ']' :: rest → False) :
    Takes .code (c :: after) [c] after .inCode := by
  refine takes_char [.closeCode] rfl rfl (List.forall_mem_singleton.2 ?_)
  rintro _ rfl
  exact not_pair_iff.2 other

theorem takes_closeLine (ended : LineEnd w) (split : cs = w ++ after)
    (longest : ∀ used rest, lineFeed? cs = some (used, rest) → w = used) :
    Takes .lineComment cs w after .closeLine := by
  have nonempty : 1 ≤ w.length := by cases ended <;> simp
  refine takes_word [.closeLine] [.inLine] rfl (by simp [Rule.language]) (by simp)
    (mem_closeLine.2 ended) (List.ne_nil_of_length_pos nonempty) split
    (List.forall_mem_singleton.2 ?_)
  rintro w' close ⟨rest, front⟩
  refine ⟨rfl, ?_⟩
  cases mem_closeLine.1 close with
  | feed k =>
    rw [longest _ rest (lineFeed?_eq_some_iff.2 ⟨front.symm, k, rfl⟩)]
  | carriage => exact nonempty

theorem takes_inLine (carriage : c ≠ '\r') (feed : c ≠ '\n') :
    Takes .lineComment (c :: after) [c] after .inLine := by
  refine takes_char [.closeLine] rfl rfl (List.forall_mem_singleton.2 ?_)
  intro w close front
  have head : ∀ d ∈ w.head?, d = c := by
    obtain ⟨rest, split⟩ := front
    cases w with
    | nil => nofun
    | cons d w =>
      rintro _ ⟨⟩
      exact (List.cons.inj split).1
  cases mem_closeLine.1 close with
  | feed k =>
    cases k with
    | zero => exact feed (head '\n' rfl).symm
    | succ k => exact carriage (head '\r' rfl).symm
  | carriage => exact carriage (head '\r' rfl).symm

theorem takes_deeper :
    Takes .blockComment ('/' :: '*' :: after) ['/', '*'] after .deeper := by
  refine takes_word [.deeper, .closeBlock] [.inBlock] rfl (by simp [Rule.language]) (by simp)
    rfl (List.cons_ne_nil _ _) rfl (List.forall_mem_cons.2 ⟨?_, List.forall_mem_singleton.2 ?_⟩)
  · rintro _ rfl -
    exact ⟨rfl, Nat.le_refl 2⟩
  · rintro _ rfl front
    simp [List.cons_prefix_cons] at front

theorem takes_closeBlock :
    Takes .blockComment ('*' :: '/' :: after) ['*', '/'] after .closeBlock := by
  refine takes_word [.deeper, .closeBlock] [.inBlock] rfl (by simp [Rule.language]) (by simp)
    rfl (List.cons_ne_nil _ _) rfl (List.forall_mem_cons.2 ⟨?_, List.forall_mem_singleton.2 ?_⟩)
  · rintro _ rfl front
    simp [List.cons_prefix_cons] at front
  · rintro _ rfl -
    exact ⟨rfl, Nat.le_refl 2⟩

theorem takes_inBlock (opening : ∀ rest, c = '/' → after = '*' :: rest → False)
    (close : ∀ rest, c = '*' → after = '/' :: rest → False) :
    Takes .blockComment (c :: after) [c] after .inBlock := by
  refine takes_char [.deeper, .closeBlock] rfl rfl
    (List.forall_mem_cons.2 ⟨?_, List.forall_mem_singleton.2 ?_⟩)
  · rintro _ rfl
    exact not_pair_iff.2 opening
  · rintro _ rfl
    exact not_pair_iff.2 close

def Silent : State → State → Prop := Relation.ReflTransGen fun s s' => Step s none s'

theorem Silent.runs (silent : Silent s s') (runs : Runs s' ts fault) : Runs s ts fault := by
  induction silent using Relation.ReflTransGen.head_induction_on with
  | refl => exact runs
  | head step _ ih => exact .step step ih

theorem silent_of_keep (takes : Takes mode cs w after rule) {mode' : Mode} {depth' : Nat}
    (effect : rule.effect depth (m ++ w) = .keep mode' depth')
    (silent : Silent ⟨mode', depth', l, m ++ w, after⟩ s) :
    Silent ⟨mode, depth, l, m, cs⟩ s :=
  .head ⟨w, after, rule, takes, by rw [effect]; rfl⟩ silent

theorem silent_of_drop (takes : Takes mode cs w after rule) {mode' : Mode} {depth' : Nat}
    (effect : rule.effect depth (m ++ w) = .drop mode' depth')
    (silent : Silent ⟨mode', depth', l.afterAll (m ++ w), [], after⟩ s) :
    Silent ⟨mode, depth, l, m, cs⟩ s :=
  .head ⟨w, after, rule, takes, by rw [effect]; rfl⟩ silent

theorem inFront_nil (cs : List Char) : inFront [] cs = cs := by
  cases cs <;> rfl

theorem inFront_inFront (cs ds es : List Char) :
    inFront cs (inFront ds es) = inFront (cs ++ ds) es := by
  cases es with
  | nil => rfl
  | cons e es => cases ds <;> simp [inFront]

theorem silent_patternBody (found : patternBody cs = some (body, after)) :
    Silent ⟨.pattern, depth, l, m, cs⟩ ⟨.pattern, depth, l, m ++ body, '"' :: after⟩ := by
  fun_induction patternBody cs generalizing body m with
  | case1 =>
    obtain ⟨rfl, rfl⟩ := Prod.mk.inj (Option.some.inj found)
    rw [List.append_nil]
    exact .refl
  | case2 c rest ih =>
    obtain ⟨⟨more, _⟩, inside, split⟩ := Option.map_eq_some_iff.1 found
    obtain ⟨rfl, rfl⟩ := Prod.mk.inj split
    have behind := ih (m := m ++ ['\\', c]) inside
    rw [List.append_assoc] at behind
    exact silent_of_keep takes_escape rfl behind
  | case3 c rest quote pair ih =>
    obtain ⟨⟨more, _⟩, inside, split⟩ := Option.map_eq_some_iff.1 found
    obtain ⟨rfl, rfl⟩ := Prod.mk.inj split
    have behind := ih (m := m ++ [c]) inside
    rw [List.append_assoc] at behind
    exact silent_of_keep (takes_inPattern quote pair) rfl behind
  | case4 => cases found

theorem silent_openPattern (absent : patternBody cs = none) :
    ∃ m', Silent ⟨.pattern, depth, l, m, cs⟩ ⟨.pattern, depth, l, m', []⟩ := by
  fun_induction patternBody cs generalizing m with
  | case1 => cases absent
  | case2 c rest ih =>
    obtain ⟨m', behind⟩ := ih (m := m ++ ['\\', c]) (Option.map_eq_none_iff.1 absent)
    exact ⟨m', silent_of_keep takes_escape rfl behind⟩
  | case3 c rest quote pair ih =>
    obtain ⟨m', behind⟩ := ih (m := m ++ [c]) (Option.map_eq_none_iff.1 absent)
    exact ⟨m', silent_of_keep (takes_inPattern quote pair) rfl behind⟩
  | case4 => exact ⟨m, .refl⟩

theorem silent_codeBody (found : codeBody cs = some (body, after)) :
    Silent ⟨.code, depth, l, m, cs⟩ ⟨.code, depth, l, m ++ body, '*' :: ']' :: after⟩ := by
  fun_induction codeBody cs generalizing body m with
  | case1 =>
    obtain ⟨rfl, rfl⟩ := Prod.mk.inj (Option.some.inj found)
    rw [List.append_nil]
    exact .refl
  | case2 c rest other ih =>
    obtain ⟨⟨more, _⟩, inside, split⟩ := Option.map_eq_some_iff.1 found
    obtain ⟨rfl, rfl⟩ := Prod.mk.inj split
    have behind := ih (m := m ++ [c]) inside
    rw [List.append_assoc] at behind
    exact silent_of_keep (takes_inCode other) rfl behind
  | case3 => cases found

theorem silent_openCode (absent : codeBody cs = none) :
    ∃ m', Silent ⟨.code, depth, l, m, cs⟩ ⟨.code, depth, l, m', []⟩ := by
  fun_induction codeBody cs generalizing m with
  | case1 => cases absent
  | case2 c rest other ih =>
    obtain ⟨m', behind⟩ := ih (m := m ++ [c]) (Option.map_eq_none_iff.1 absent)
    exact ⟨m', silent_of_keep (takes_inCode other) rfl behind⟩
  | case3 => exact ⟨m, .refl⟩

theorem silent_lineComment (found : lineComment cs = .ok (used, after)) :
    Silent ⟨.lineComment, depth, l, m, cs⟩ ⟨.init, depth, l.afterAll (m ++ used), [], after⟩ := by
  fun_induction lineComment cs generalizing used l m with
  | case1 | case6 => cases found
  | case2 =>
    obtain ⟨rfl, rfl⟩ := Prod.mk.inj (Except.ok.inj found)
    refine silent_of_drop (takes_closeLine (.feed 0) rfl ?_) rfl .refl
    rintro _ _ ⟨⟩
    rfl
  | case3 rest more rest' feed =>
    obtain ⟨rfl, rfl⟩ := Prod.mk.inj (Except.ok.inj found)
    obtain ⟨rfl, k, rfl⟩ := lineFeed?_eq_some_iff.1 feed
    refine silent_of_drop (takes_closeLine (.feed (k + 1)) rfl ?_) rfl .refl
    intro longer rest longest
    rw [lineFeed?, feed] at longest
    exact (Prod.mk.inj (Option.some.inj longest)).1
  | case4 rest feed =>
    obtain ⟨rfl, rfl⟩ := Prod.mk.inj (Except.ok.inj found)
    refine silent_of_drop (takes_closeLine .carriage rfl ?_) rfl .refl
    intro longer rest longest
    rw [lineFeed?, feed] at longest
    cases longest
  | case5 c rest feed carriage more rest' inside ih =>
    obtain ⟨rfl, rfl⟩ := Prod.mk.inj (Except.ok.inj found)
    have behind := ih (l := l.afterAll (m ++ [c])) (m := []) inside
    rw [← Location.afterAll_append, List.append_assoc] at behind
    exact silent_of_drop (takes_inLine carriage feed) rfl behind

theorem silent_openLine (broken : lineComment cs = .error passed) :
    ∃ m', Silent ⟨.lineComment, depth, l, m, cs⟩
      ⟨.lineComment, depth, l.afterAll (inFront m passed), m', []⟩ := by
  fun_induction lineComment cs generalizing passed l m with
  | case1 =>
    obtain rfl := Except.error.inj broken
    exact ⟨m, .refl⟩
  | case2 | case3 | case4 | case5 => cases broken
  | case6 c rest feed carriage passed' inside ih =>
    obtain rfl := Except.error.inj broken
    obtain ⟨m', behind⟩ := ih (l := l.afterAll (m ++ [c])) (m := []) inside
    rw [inFront_nil, ← Location.afterAll_append, List.append_assoc] at behind
    exact ⟨m', silent_of_drop (takes_inLine carriage feed) rfl behind⟩

theorem silent_blockComment (found : blockComment depth cs = .ok (used, after)) :
    Silent ⟨.blockComment, depth + 1, l, m, cs⟩ ⟨.init, 0, l.afterAll (m ++ used), [], after⟩ := by
  fun_induction blockComment depth cs generalizing used l m with
  | case1 depth rest more rest' inside ih =>
    obtain ⟨rfl, rfl⟩ := Prod.mk.inj (Except.ok.inj found)
    have behind := ih (l := l) (m := m ++ ['/', '*']) inside
    rw [List.append_assoc] at behind
    exact silent_of_keep takes_deeper rfl behind
  | case2 | case5 | case7 | case8 => cases found
  | case3 rest =>
    obtain ⟨rfl, rfl⟩ := Prod.mk.inj (Except.ok.inj found)
    exact silent_of_drop takes_closeBlock rfl .refl
  | case4 rest outer more rest' inside ih =>
    obtain ⟨rfl, rfl⟩ := Prod.mk.inj (Except.ok.inj found)
    have behind := ih (l := l) (m := m ++ ['*', '/']) inside
    rw [List.append_assoc] at behind
    exact silent_of_keep takes_closeBlock rfl behind
  | case6 depth c rest opening close more rest' inside ih =>
    obtain ⟨rfl, rfl⟩ := Prod.mk.inj (Except.ok.inj found)
    have behind := ih (l := l.afterAll (m ++ [c])) (m := []) inside
    rw [← Location.afterAll_append, List.append_assoc] at behind
    exact silent_of_drop (takes_inBlock opening close) rfl behind

theorem silent_openBlock (broken : blockComment depth cs = .error passed) :
    ∃ depth' m', Silent ⟨.blockComment, depth + 1, l, m, cs⟩
      ⟨.blockComment, depth', l.afterAll (inFront m passed), m', []⟩ := by
  fun_induction blockComment depth cs generalizing passed l m with
  | case1 | case3 | case4 | case6 => cases broken
  | case2 depth rest passed' inside ih =>
    obtain rfl := Except.error.inj broken
    obtain ⟨depth', m', behind⟩ := ih (l := l) (m := m ++ ['/', '*']) inside
    rw [← inFront_inFront] at behind
    exact ⟨depth', m', silent_of_keep takes_deeper rfl behind⟩
  | case5 rest outer passed' inside ih =>
    obtain rfl := Except.error.inj broken
    obtain ⟨depth', m', behind⟩ := ih (l := l) (m := m ++ ['*', '/']) inside
    rw [← inFront_inFront] at behind
    exact ⟨depth', m', silent_of_keep takes_closeBlock rfl behind⟩
  | case7 depth c rest opening close passed' inside ih =>
    obtain rfl := Except.error.inj broken
    obtain ⟨depth', m', behind⟩ := ih (l := l.afterAll (m ++ [c])) (m := []) inside
    rw [inFront_nil, ← Location.afterAll_append, List.append_assoc] at behind
    exact ⟨depth', m', silent_of_drop (takes_inBlock opening close) rfl behind⟩
  | case8 depth =>
    obtain rfl := Except.error.inj broken
    exact ⟨depth + 1, m, .refl⟩

/-! ## In front of a piece -/

def frontRule? (c : Char) (rest : List Char) : Option Rule :=
  if isBlank c then some .space
  else if c = '"' then some .openPattern
  else if Text.isIdentifierStart c then some .name
  else if ['/', '/'] <+: c :: rest then some .openLine
  else if ['/', '*'] <+: c :: rest then some .openBlock
  else if ['[', '*'] <+: c :: rest then some .openCode
  else (fixedToken? (c :: rest)).map fun (t, spelling) => .fixed spelling t

theorem frontRule?_eq (member : rule ∈ Mode.init.rules) (here : w ∈ rule.language)
    (front : w <+: c :: rest) : frontRule? c rest = some rule := by
  simp only [Mode.rules, List.mem_append, List.mem_map, List.mem_cons, List.not_mem_nil,
    or_false] at member
  rcases member with ((rfl | rfl | rfl | rfl | rfl) | ⟨⟨spelling, t⟩, member, rfl⟩) | rfl
  · obtain ⟨nonempty, spaces⟩ := mem_space.1 here
    obtain ⟨d, w, rfl⟩ := List.exists_cons_of_ne_nil nonempty
    obtain ⟨rfl, -⟩ := List.cons_prefix_cons.1 front
    simp [frontRule?, spaces d (List.mem_cons_self ..)]
  · obtain rfl := here
    obtain ⟨rfl, -⟩ := List.cons_prefix_cons.1 front
    have other : isBlank '/' = false ∧ Text.isIdentifierStart '/' = false := by decide
    simp [frontRule?, other, front]
  · obtain rfl := here
    obtain ⟨rfl, star⟩ := List.cons_prefix_cons.1 front
    obtain ⟨tail, rfl⟩ := star
    have other : isBlank '/' = false ∧ Text.isIdentifierStart '/' = false := by decide
    simp [frontRule?, other, List.cons_prefix_cons]
  · obtain rfl := here
    obtain ⟨rfl, -⟩ := List.cons_prefix_cons.1 front
    rfl
  · obtain rfl := here
    obtain ⟨rfl, -⟩ := List.cons_prefix_cons.1 front
    have other : isBlank '[' = false ∧ Text.isIdentifierStart '[' = false := by decide
    simp [frontRule?, other, front]
  · obtain rfl := here
    have found := fixedToken?_eq_some_iff.2 ⟨member, front⟩
    obtain ⟨head, isHead, tail, rfl⟩ := head_of_mem_fixedTokens member
    obtain ⟨rfl, -⟩ := List.cons_prefix_cons.1 front
    obtain ⟨space, slash, quote, bracket, start⟩ := of_mem_fixedHeads isHead
    simp [frontRule?, space, quote, start, found, List.cons_prefix_cons, slash.symm, bracket.symm]
  · obtain ⟨d, w, start, -, rfl⟩ := mem_name.1 here
    obtain ⟨rfl, -⟩ := List.cons_prefix_cons.1 front
    obtain ⟨space, -, quote, -⟩ := of_isIdentifierStart start
    simp [frontRule?, space, quote, start]

theorem takes_init (member : rule ∈ Mode.init.rules) (here : w ∈ rule.language)
    (nonempty : w ≠ []) (split : cs = w ++ after)
    (longest : ∀ w' ∈ rule.language, w' <+: cs → w'.length ≤ w.length) :
    Takes .init cs w after rule := by
  refine takes_word Mode.init.rules [] (List.append_nil _).symm (List.forall_mem_nil _) member here
    nonempty split ?_
  intro other inside w' matches' front
  cases cs with
  | nil => exact absurd (List.append_eq_nil_iff.1 split.symm).1 nonempty
  | cons c rest =>
    have same := (frontRule?_eq inside matches' front).symm.trans
      (frontRule?_eq member here ⟨after, split.symm⟩)
    obtain rfl := Option.some.inj same
    exact ⟨rfl, longest w' matches' front⟩

theorem length_le_takeWhile (all : ∀ c ∈ w, p c = true) (front : w <+: cs) :
    w.length ≤ (cs.takeWhile p).length := by
  obtain ⟨rest, rfl⟩ := front
  rw [List.takeWhile_append_of_pos all, List.length_append]
  exact Nat.le_add_right ..

theorem takes_space (space : isBlank c = true) : Takes .init (c :: rest)
    (c :: rest.takeWhile isBlank) (rest.dropWhile isBlank) .space := by
  refine takes_init (by simp [Mode.rules]) (mem_space.2 ⟨List.cons_ne_nil _ _, ?_⟩)
    (List.cons_ne_nil _ _) (by simp) ?_
  · exact List.forall_mem_cons.2 ⟨space, fun d => List.mem_takeWhile_imp⟩
  · intro w spaces front
    have longest := length_le_takeWhile (mem_space.1 spaces).2 front
    rwa [List.takeWhile_cons_of_pos space] at longest

theorem takes_name (start : Text.isIdentifierStart c = true) : Takes .init (c :: rest)
    (c :: rest.takeWhile Text.isXidContinue) (rest.dropWhile Text.isXidContinue) .name := by
  refine takes_init (by simp [Mode.rules]) (mem_name.2 ⟨c, _, start, ?_, rfl⟩)
    (List.cons_ne_nil _ _) (by simp) ?_
  · exact fun d => List.mem_takeWhile_imp
  · intro w name front
    obtain ⟨d, w, -, names, rfl⟩ := mem_name.1 name
    exact Nat.succ_le_succ (length_le_takeWhile names (List.cons_prefix_cons.1 front).2)

/-- A rule for one word takes it wherever it stands. -/
theorem takes_only_word (member : rule ∈ Mode.init.rules) (only : rule.language = {w})
    (nonempty : w ≠ []) (split : cs = w ++ after) : Takes .init cs w after rule := by
  refine takes_init member (only ▸ rfl) nonempty split ?_
  rw [only]
  rintro _ rfl -
  exact Nat.le_refl _

theorem takes_openLine : Takes .init ('/' :: '/' :: after) ['/', '/'] after .openLine :=
  takes_only_word (by simp [Mode.rules]) rfl (List.cons_ne_nil _ _) rfl

theorem takes_openBlock : Takes .init ('/' :: '*' :: after) ['/', '*'] after .openBlock :=
  takes_only_word (by simp [Mode.rules]) rfl (List.cons_ne_nil _ _) rfl

theorem takes_openPattern : Takes .init ('"' :: after) ['"'] after .openPattern :=
  takes_only_word (by simp [Mode.rules]) rfl (List.cons_ne_nil _ _) rfl

theorem takes_openCode : Takes .init ('[' :: '*' :: after) ['[', '*'] after .openCode :=
  takes_only_word (by simp [Mode.rules]) rfl (List.cons_ne_nil _ _) rfl

def Piece.Lexes (l : Location) (cs : List Char) : Piece → Prop
  | .blank used after => Silent ⟨.init, 0, l, [], cs⟩ ⟨.init, 0, l.afterAll used, [], after⟩
  | .token t used after => ∃ s, Silent ⟨.init, 0, l, [], cs⟩ s ∧
      Step s (some ⟨t, l, l.afterAll used⟩) ⟨.init, 0, l.afterAll used, [], after⟩
  | .broken passed => ∃ s, Silent ⟨.init, 0, l, [], cs⟩ s ∧ s.Stuck ∧
      s.start = l.afterAll passed

theorem Front.lexes {piece : Piece} (front : Front cs piece) (l : Location) : piece.Lexes l cs := by
  cases front with
  | space space => exact silent_of_drop (takes_space space) rfl .refl
  | @line cs =>
    cases comment : lineComment cs with
    | ok split => exact silent_of_keep takes_openLine rfl (silent_lineComment comment)
    | error passed =>
      obtain ⟨m, silent⟩ := silent_openLine comment
      exact ⟨_, silent_of_keep takes_openLine rfl silent, stuck_of_nil (by decide), rfl⟩
  | @block cs =>
    cases comment : blockComment 0 cs with
    | ok split => exact silent_of_keep takes_openBlock rfl (silent_blockComment comment)
    | error passed =>
      obtain ⟨depth, m, silent⟩ := silent_openBlock comment
      exact ⟨_, silent_of_keep takes_openBlock rfl silent, stuck_of_nil (by decide), rfl⟩
  | @pattern cs body after found =>
    refine ⟨_, silent_of_keep takes_openPattern rfl (silent_patternBody found), ['"'], after,
      .closePattern, takes_closePattern, ?_⟩
    simp [Rule.effect, State.behind, List.extract_eq_take_drop]
  | @openPattern cs absent =>
    obtain ⟨m, silent⟩ := silent_openPattern absent
    exact ⟨_, silent_of_keep takes_openPattern rfl silent, stuck_of_nil (by decide), rfl⟩
  | @code cs body after found =>
    refine ⟨_, silent_of_keep takes_openCode rfl (silent_codeBody found), ['*', ']'], after,
      .closeCode, takes_closeCode, ?_⟩
    simp [Rule.effect, State.behind, List.extract_eq_take_drop]
  | @openCode cs absent =>
    obtain ⟨m, silent⟩ := silent_openCode absent
    exact ⟨_, silent_of_keep takes_openCode rfl silent, stuck_of_nil (by decide), rfl⟩
  | identifier start => exact ⟨_, .refl, _, _, .name, takes_name start, rfl⟩
  | @fixed spelling after t member =>
    refine ⟨_, .refl, spelling, after, .fixed spelling t, takes_only_word ?_ rfl ?_ rfl, rfl⟩
    · simp [Mode.rules, member]
    · exact fixedTokens_ne_nil member
  | @nothing c rest space line block quote code start fixed =>
    refine ⟨_, .refl, ⟨fun _ => List.cons_ne_nil _ _, fun w after rule takes => ?_⟩, rfl⟩
    have absent := fixedToken?_eq_none_iff.2 fixed
    have front := frontRule?_eq takes.mem.1 takes.mem.2 ⟨after, takes.split.symm⟩
    simp [frontRule?, space, line, block, quote, code, start, absent] at front

/-- Reading by the rules from any location gives what scanning gives there. -/
theorem runs_scanFrom (l : Location) (cs : List Char) :
    Runs ⟨.init, 0, l, [], cs⟩ (scanFrom l cs).1 (scanFrom l cs).2 := by
  induction l, cs using scan_induction with
  | nil l =>
    rw [scanFrom]
    exact .finished rfl rfl
  | blank l c rest used after found ih =>
    rw [scanFrom_of_blank found]
    have lexes : (Piece.blank used after).Lexes l (c :: rest) := (Piece.next_eq_iff.1 found).lexes l
    exact Silent.runs lexes ih
  | token l c rest t used after found ih =>
    rw [scanFrom_of_token found]
    have lexes : (Piece.token t used after).Lexes l (c :: rest) :=
      (Piece.next_eq_iff.1 found).lexes l
    obtain ⟨s, silent, step⟩ := lexes
    exact silent.runs (.step step ih)
  | broken l c rest passed found =>
    rw [scanFrom_of_broken found]
    have lexes : (Piece.broken passed).Lexes l (c :: rest) := (Piece.next_eq_iff.1 found).lexes l
    obtain ⟨s, silent, stuck, start⟩ := lexes
    exact silent.runs (start ▸ .stuck stuck)

/-- Reading a text by the rules gives its tokens and its fault, and nothing else. -/
theorem runs_iff {text : String} : Runs (.initial text) ts fault ↔ scan text = (ts, fault) := by
  have runs := runs_scanFrom {} text.toList
  constructor
  · intro other
    obtain ⟨rfl, rfl⟩ := other.unique runs
    rfl
  · intro read
    obtain ⟨rfl, rfl⟩ := Prod.mk.inj read
    exact runs

end Lalr.Source
