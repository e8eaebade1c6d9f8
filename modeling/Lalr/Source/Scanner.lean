import Lalr.Source.Token
import Lalr.Text.Basic
import Lalr.Text.Identifier

/-! Splitting a grammar file into tokens. A text is cut into pieces, each a token or blank
space; comments are blank. The longest piece that fits is taken. -/
namespace Lalr.Source

/-- White space between tokens: space, tab and line ends only. -/
def isBlank (c : Char) : Bool := c == ' ' || c == '\t' || c == '\r' || c == '\n'

inductive Piece where
  | blank (used rest : List Char)
  | token (t : Token) (used rest : List Char)
  /-- No token begins here. The fault is reported behind the characters `passed`. -/
  | broken (passed : List Char)
  deriving DecidableEq, Repr

def inFront (cs rest : List Char) : List Char := if rest.isEmpty then [] else cs ++ rest

/-- A line end of the form `'\r'* '\n'`, split off the front. -/
def lineFeed? : List Char → Option (List Char × List Char)
  | '\n' :: rest => some (['\n'], rest)
  | '\r' :: rest => (lineFeed? rest).map fun (used, rest') => ('\r' :: used, rest')
  | _ => none

/-- The rest of a line comment with its line end. A comment that no line end closes fails
behind its last character. -/
def lineComment : List Char → Except (List Char) (List Char × List Char)
  | [] => .error []
  | c :: rest =>
    if c = '\n' then .ok ([c], rest)
    else if c = '\r' then
      match lineFeed? rest with
      | some (used, rest') => .ok (c :: used, rest')
      | none => .ok ([c], rest)
    else
      match lineComment rest with
      | .ok (used, rest') => .ok (c :: used, rest')
      | .error passed => .error (c :: passed)

/-- The rest of a block comment that has `depth` further comments open inside. A comment
that is not closed fails behind the last character that is part of no delimiter. -/
def blockComment (depth : Nat) : List Char → Except (List Char) (List Char × List Char)
  | '/' :: '*' :: rest =>
    match blockComment (depth + 1) rest with
    | .ok (used, rest') => .ok ('/' :: '*' :: used, rest')
    | .error passed => .error (inFront ['/', '*'] passed)
  | '*' :: '/' :: rest =>
    match depth with
    | 0 => .ok (['*', '/'], rest)
    | outer + 1 =>
      match blockComment outer rest with
      | .ok (used, rest') => .ok ('*' :: '/' :: used, rest')
      | .error passed => .error (inFront ['*', '/'] passed)
  | c :: rest =>
    match blockComment depth rest with
    | .ok (used, rest') => .ok (c :: used, rest')
    | .error passed => .error (c :: passed)
  | [] => .error []

def patternBody : List Char → Option (List Char × List Char)
  | '"' :: rest => some ([], rest)
  | '\\' :: c :: rest => (patternBody rest).map fun (body, rest') => ('\\' :: c :: body, rest')
  | c :: rest => (patternBody rest).map fun (body, rest') => (c :: body, rest')
  | [] => none

def codeBody : List Char → Option (List Char × List Char)
  | '*' :: ']' :: rest => some ([], rest)
  | c :: rest => (codeBody rest).map fun (body, rest') => (c :: body, rest')
  | [] => none

/-- Tokens of fixed spelling. No spelling begins another one. -/
def fixedTokens : List (List Char × Token) :=
  [(['\x7b'], .openBrace), (['\x7d'], .closeBrace), (['@', '\x7b'], .openConfig),
    ([':', '='], .define), (['='], .equals), ([','], .comma), ([';'], .semicolon),
    (['|'], .bar)] ++
  Keyword.all.map fun k => ('@' :: k.word.toList, .keyword k)

def fixedToken? (cs : List Char) : Option (Token × List Char) :=
  (fixedTokens.find? fun (spelling, _) => spelling.isPrefixOf cs).map fun (spelling, t) =>
    (t, spelling)

def commentPiece (opening : List Char) :
    Except (List Char) (List Char × List Char) → Piece
  | .ok (used, rest) => .blank (opening ++ used) rest
  | .error passed => .broken (inFront opening passed)

def Piece.next (c : Char) (rest : List Char) : Piece :=
  if isBlank c then .blank (c :: rest.takeWhile isBlank) (rest.dropWhile isBlank)
  else if c = '/' then
    match rest with
    | '/' :: rest => commentPiece ['/', '/'] (lineComment rest)
    | '*' :: rest => commentPiece ['/', '*'] (blockComment 0 rest)
    | _ => .broken []
  else if c = '"' then
    match patternBody rest with
    | some (body, rest) => .token (.pattern (.ofList body)) ('"' :: body ++ ['"']) rest
    | none => .broken []
  else if c = '[' then
    match rest with
    | '*' :: rest =>
      match codeBody rest with
      | some (body, rest) =>
        .token (.code (.ofList (Text.trimmed body))) ('[' :: '*' :: body ++ ['*', ']']) rest
      | none => .broken []
    | _ => .broken []
  else if Text.isIdentifierStart c then
    let name := c :: rest.takeWhile Text.isXidContinue
    .token (.identifier (.ofList name)) name (rest.dropWhile Text.isXidContinue)
  else
    match fixedToken? (c :: rest) with
    | some (t, spelling) => .token t spelling ((c :: rest).drop spelling.length)
    | none => .broken []

theorem lineFeed?_split {cs used rest : List Char} (h : lineFeed? cs = some (used, rest)) :
    cs = used ++ rest := by
  fun_induction lineFeed? cs generalizing used with
  | case1 => grind
  | case2 r ih =>
    simp only [Option.map_eq_some_iff, Prod.exists, Prod.mk.injEq] at h
    obtain ⟨a, b, hab, rfl, rfl⟩ := h
    simp [ih hab]
  | case3 => simp at h

theorem lineComment_split {cs used rest : List Char} (h : lineComment cs = .ok (used, rest)) :
    cs = used ++ rest := by
  fun_induction lineComment cs generalizing used with
  | case1 => simp at h
  | case2 => grind
  | case3 => grind [lineFeed?_split]
  | case4 => grind
  | case5 => grind
  | case6 => grind

theorem blockComment_split {depth : Nat} {cs used rest : List Char}
    (h : blockComment depth cs = .ok (used, rest)) : cs = used ++ rest := by
  fun_induction blockComment depth cs generalizing used <;> grind

theorem patternBody_split {cs body rest : List Char} (h : patternBody cs = some (body, rest)) :
    cs = body ++ '"' :: rest := by
  fun_induction patternBody cs generalizing body <;> grind [Option.map_eq_some_iff]

theorem codeBody_split {cs body rest : List Char} (h : codeBody cs = some (body, rest)) :
    cs = body ++ '*' :: ']' :: rest := by
  fun_induction codeBody cs generalizing body <;> grind [Option.map_eq_some_iff]

theorem fixedTokens_ne_nil {e : List Char × Token} (h : e ∈ fixedTokens) : e.1 ≠ [] := by
  simp only [fixedTokens, List.mem_append, List.mem_map] at h
  rcases h with h | ⟨k, _, rfl⟩
  · simp only [List.mem_cons, List.not_mem_nil, or_false] at h
    rcases h with h | h | h | h | h | h | h | h <;> subst h <;> simp
  · simp

theorem fixedToken?_split {cs spelling : List Char} {t : Token}
    (h : fixedToken? cs = some (t, spelling)) :
    (spelling, t) ∈ fixedTokens ∧ cs = spelling ++ cs.drop spelling.length := by
  simp only [fixedToken?, Option.map_eq_some_iff, Prod.exists, Prod.mk.injEq] at h
  obtain ⟨a, b, hf, rfl, rfl⟩ := h
  refine ⟨List.mem_of_find?_eq_some hf, ?_⟩
  have := List.find?_some hf
  simp only [List.isPrefixOf_iff_prefix] at this
  obtain ⟨r, rfl⟩ := this
  simp

def Piece.Splits (cs : List Char) : Piece → Prop
  | .blank used rest | .token _ used rest => cs = used ++ rest ∧ used ≠ []
  | .broken _ => True

/-- A piece takes at least one character and leaves all others. -/
theorem Piece.next_splits (c : Char) (rest : List Char) :
    (Piece.next c rest).Splits (c :: rest) := by
  unfold Piece.next
  split
  · simp [Splits]
  split
  next hc =>
    split
    next r =>
      cases h : lineComment r with
      | ok p =>
        obtain ⟨used, after⟩ := p
        simp [commentPiece, Splits, hc, lineComment_split h]
      | error e => simp [commentPiece, Splits]
    next r =>
      cases h : blockComment 0 r with
      | ok p =>
        obtain ⟨used, after⟩ := p
        simp [commentPiece, Splits, hc, blockComment_split h]
      | error e => simp [commentPiece, Splits]
    next => trivial
  split
  next hc =>
    split
    next body r h => simp [Splits, hc, patternBody_split h]
    next => trivial
  split
  next hc =>
    split
    next r =>
      split
      next body r h => simp [Splits, hc, codeBody_split h]
      next => trivial
    next => trivial
  split
  · simp [Splits]
  split
  next t spelling h =>
    have := fixedToken?_split h
    exact ⟨this.2, fixedTokens_ne_nil this.1⟩
  next => trivial

theorem Piece.length_of_split {cs used rest : List Char} (h : cs = used ++ rest ∧ used ≠ []) :
    rest.length < cs.length := by
  have := List.length_pos_iff.2 h.2
  rw [h.1, List.length_append]
  omega

/-- The tokens of a text that starts at a location, up to the first fault. -/
def scanFrom (start : Location) (cs : List Char) : List Located × Option Location :=
  match cs with
  | [] => ([], none)
  | c :: rest =>
    match _split : Piece.next c rest with
    | .blank used after => scanFrom (start.afterAll used) after
    | .token t used after =>
      let last := start.afterAll used
      let (tokens, fault) := scanFrom last after
      (⟨t, start, last⟩ :: tokens, fault)
    | .broken passed => ([], some (start.afterAll passed))
termination_by cs.length
decreasing_by
  all_goals
    have := Piece.next_splits c rest
    rw [_split] at this
    exact Piece.length_of_split this

/-- The tokens of a grammar file, and the location of the first fault if there is one. -/
def scan (text : String) : List Located × Option Location := scanFrom {} text.toList

end Lalr.Source
