import Lalr.Source.Parser

/-! The grammar of grammar files. A tree is a derivation, with every choice that a file leaves to
its author; different trees have different texts, so that a file has one tree at most. -/
namespace Lalr.Source

inductive SettingsTree where
  | empty
  /-- `comma` tells whether one stands behind the last setting. -/
  | list (first : Setting) (rest : List Setting) (comma : Bool)
  deriving DecidableEq, Repr

inductive BodyTree where
  | elements (first : Element) (rest : List Element)
  /-- `@empty` -/
  | empty
  deriving DecidableEq, Repr

structure ProductionTree where
  settings : Option SettingsTree
  body : BodyTree
  action : Option String
  deriving DecidableEq, Repr

inductive StatementTree where
  | prec (settings : Option SettingsTree) (name : String)
  | terminal (settings : Option SettingsTree) (first : TerminalDefinition)
      (rest : List TerminalDefinition)
  | whitespace (first : String) (rest : List String)
  | nonterminal (first : String) (rest : List String)
  | start (name : String)
  /-- `bar` tells whether one stands before the first alternative. -/
  | rule (left : String) (bar : Bool) (first : ProductionTree) (rest : List ProductionTree)
  | code (place : CodePlace) (text : String)
  deriving DecidableEq, Repr

/-! ## What a tree says -/

def SettingsTree.settings : SettingsTree → List Setting
  | empty => []
  | list first rest _ => first :: rest

def givenSettings (tree : Option SettingsTree) : List Setting :=
  (tree.map SettingsTree.settings).getD []

def BodyTree.all : BodyTree → List Element
  | elements first rest => first :: rest
  | empty => []

def ProductionTree.production (p : ProductionTree) : Production :=
  ⟨givenSettings p.settings, p.body.all, p.action⟩

def StatementTree.statement : StatementTree → Statement
  | prec settings name => .prec (givenSettings settings) name
  | terminal settings first rest => .terminal (givenSettings settings) (first :: rest)
  | whitespace first rest => .whitespace (first :: rest)
  | nonterminal first rest => .nonterminal (first :: rest)
  | start name => .start name
  | rule left _ first rest => .rule left ((first :: rest).map ProductionTree.production)
  | code place text => .code place text

/-! ## The text of a tree -/

def Setting.tokens (s : Setting) : List Token := [.identifier s.key, .equals, .identifier s.value]

def codeTokens (action : Option String) : List Token := (action.map Token.code).toList

def patternTokens : Option String → List Token
  | none => []
  | some p => [.equals, .pattern p]

def TerminalDefinition.tokens (d : TerminalDefinition) : List Token :=
  .identifier d.name :: (patternTokens d.pattern ++ codeTokens d.action)

def Element.token : Element → Token
  | name s => .identifier s
  | error => .keyword .error

def separated (separator : Token) (text : α → List Token) (first : α) (rest : List α) :
    List Token :=
  text first ++ rest.flatMap fun a => separator :: text a

theorem separated_cons (separator : Token) (text : α → List Token) (first second : α)
    (rest : List α) : separated separator text first (second :: rest) =
      text first ++ separator :: separated separator text second rest := rfl

def SettingsTree.tokens : SettingsTree → List Token
  | empty => [.closeBrace]
  | list first rest comma =>
    separated .comma Setting.tokens first rest ++ (if comma then [.comma] else []) ++ [.closeBrace]

/-- Settings behind their opening brace, or nothing. -/
def settingsTokens (brace : Token) : Option SettingsTree → List Token
  | none => []
  | some tree => brace :: tree.tokens

def BodyTree.tokens : BodyTree → List Token
  | elements first rest => (first :: rest).map Element.token
  | empty => [.keyword .empty]

def ProductionTree.tokens (p : ProductionTree) : List Token :=
  settingsTokens .openConfig p.settings ++ p.body.tokens ++ codeTokens p.action

def CodePlace.keyword : CodePlace → Keyword
  | header => .header
  | footer => .footer

def StatementTree.tokens : StatementTree → List Token
  | prec settings name => .keyword .prec :: settingsTokens .openBrace settings ++ [.identifier name]
  | terminal settings first rest => .keyword .terminal :: settingsTokens .openBrace settings ++
      separated .comma TerminalDefinition.tokens first rest
  | whitespace first rest => .keyword .whitespace :: separated .comma ([.pattern ·]) first rest
  | nonterminal first rest =>
    .keyword .nonterminal :: separated .comma ([.identifier ·]) first rest
  | start name => [.keyword .start, .identifier name]
  | rule left bar first rest => .keyword .rule :: .identifier left :: .define ::
      (if bar then [.bar] else []) ++ separated .bar ProductionTree.tokens first rest
  | code place text => [.keyword place.keyword, .code text]

def treeTokens (trees : List StatementTree) : List Token :=
  trees.flatMap fun tree => tree.tokens ++ [.semicolon]

/-! ## Different trees have different texts -/

/-- Texts that can be told apart in front of what `Ends` admits. -/
def Distinct (Ends : List Token → Prop) (text : α → List Token) : Prop :=
  ∀ a b u v, Ends u → Ends v → text a ++ u = text b ++ v → a = b ∧ u = v

theorem distinct_separated {Ends : List Token → Prop} {text : α → List Token} {separator : Token}
    (distinct : Distinct Ends text) (between : ∀ u, Ends (separator :: u))
    (behind : ∀ u, Ends (.semicolon :: u)) (other : separator ≠ .semicolon)
    {a b : α} {as bs : List α} {u v : List Token}
    (same : separated separator text a as ++ .semicolon :: u =
      separated separator text b bs ++ .semicolon :: v) : a = b ∧ as = bs ∧ u = v := by
  induction as generalizing a b bs with
  | nil =>
    cases bs with
    | nil =>
      simp only [separated, List.flatMap_nil, List.append_nil] at same
      obtain ⟨rfl, rest⟩ := distinct a b _ _ (behind u) (behind v) same
      exact ⟨rfl, rfl, List.tail_eq_of_cons_eq rest⟩
    | cons c bs =>
      rw [separated_cons, List.append_assoc] at same
      simp only [separated, List.flatMap_nil, List.append_nil] at same
      have rest := (distinct a b _ _ (behind u) (between _) same).2
      exact absurd (List.head_eq_of_cons_eq rest).symm other
  | cons c as ih =>
    cases bs with
    | nil =>
      rw [separated_cons, List.append_assoc] at same
      simp only [separated, List.flatMap_nil, List.append_nil] at same
      have rest := (distinct a b _ _ (between _) (behind v) same).2
      exact absurd (List.head_eq_of_cons_eq rest) other
    | cons d bs =>
      rw [separated_cons, separated_cons, List.append_assoc, List.append_assoc] at same
      obtain ⟨rfl, rest⟩ := distinct a b _ _ (between _) (between _) same
      obtain ⟨rfl, rfl, rfl⟩ := ih (List.tail_eq_of_cons_eq rest)
      exact ⟨rfl, rfl, rfl⟩

theorem SettingsTree.tokens_cons (a b : Setting) (rest : List Setting) (comma : Bool) :
    (list a (b :: rest) comma).tokens = a.tokens ++ .comma :: (list b rest comma).tokens := by
  simp [tokens, separated]

theorem distinct_settingsList {a b : Setting} {as bs : List Setting} {c d : Bool}
    {u v : List Token}
    (same : (SettingsTree.list a as c).tokens ++ u = (SettingsTree.list b bs d).tokens ++ v) :
    (a = b ∧ as = bs ∧ c = d) ∧ u = v := by
  induction as generalizing a b bs with
  | nil =>
    obtain ⟨k, x⟩ := a
    obtain ⟨l, y⟩ := b
    -- A comma stands before a name or before the closing brace, and the next token tells which.
    cases bs <;> cases c <;> cases d <;>
      simp_all [SettingsTree.tokens, separated, Setting.tokens]
  | cons e as ih =>
    obtain ⟨k, x⟩ := a
    obtain ⟨l, y⟩ := b
    cases bs with
    | nil => cases c <;> cases d <;> simp_all [SettingsTree.tokens, separated, Setting.tokens]
    | cons f bs =>
      simp only [SettingsTree.tokens_cons, Setting.tokens, List.cons_append, List.nil_append,
        List.cons.injEq, Token.identifier.injEq, true_and] at same
      obtain ⟨rfl, rfl, same⟩ := same
      obtain ⟨⟨rfl, rfl, rfl⟩, rest⟩ := ih same
      exact ⟨⟨rfl, rfl, rfl⟩, rest⟩

theorem distinct_settings : Distinct (fun _ => True) SettingsTree.tokens := by
  intro a b u v _ _ same
  cases a with
  | empty =>
    cases b with
    | empty => simpa [SettingsTree.tokens] using same
    | list => simp [SettingsTree.tokens, separated, Setting.tokens] at same
  | list =>
    cases b with
    | empty => simp [SettingsTree.tokens, separated, Setting.tokens] at same
    | list =>
      obtain ⟨⟨rfl, rfl, rfl⟩, rest⟩ := distinct_settingsList same
      exact ⟨rfl, rest⟩

/-- Braces tell settings from what may stand in their place. -/
theorem distinct_settingsTokens (brace : Token) :
    Distinct (fun u => u.head? ≠ some brace) (settingsTokens brace) := by
  intro a b u v ends ends' same
  cases a <;> cases b <;>
    simp only [settingsTokens, List.nil_append, List.cons_append, List.cons.injEq, true_and] at same
  · exact ⟨rfl, same⟩
  · exact absurd (congrArg List.head? same) ends
  · exact absurd (congrArg List.head? same).symm ends'
  · obtain ⟨rfl, rest⟩ := distinct_settings _ _ _ _ trivial trivial same
    exact ⟨rfl, rest⟩

def EndsItem (u : List Token) : Prop :=
  ∃ t rest, u = t :: rest ∧ (t = .comma ∨ t = .bar ∨ t = .semicolon)

theorem distinct_code : Distinct EndsItem codeTokens := by
  rintro (_ | a) (_ | b) u v ⟨s, rest, rfl, ends⟩ ⟨t, rest', rfl, ends'⟩ same <;>
    simp only [codeTokens, Option.map_none, Option.map_some, Option.toList, List.nil_append,
      List.cons_append, List.cons.injEq] at same
  · exact ⟨rfl, by rw [same.1, same.2]⟩
  · obtain ⟨rfl, -⟩ := same
    simp at ends
  · obtain ⟨rfl, -⟩ := same
    simp at ends'
  · simpa using same

theorem distinct_definition : Distinct EndsItem TerminalDefinition.tokens := by
  rintro ⟨name, pattern, action⟩ ⟨name', pattern', action'⟩ u v ends ends' same
  simp only [TerminalDefinition.tokens, List.cons_append, List.append_assoc, List.cons.injEq,
    Token.identifier.injEq] at same
  obtain ⟨rfl, same⟩ := same
  have head (action : Option String) {w : List Token} (ends : EndsItem w) :
      (codeTokens action ++ w).head? ≠ some .equals := by
    obtain ⟨t, rest, rfl, ends⟩ := ends
    cases action
    · rcases ends with rfl | rfl | rfl <;> simp [codeTokens]
    · simp [codeTokens]
  cases pattern <;> cases pattern' <;>
    simp only [patternTokens, List.nil_append, List.cons_append, List.cons.injEq, true_and,
      Token.pattern.injEq] at same
  · obtain ⟨rfl, rest⟩ := distinct_code _ _ _ _ ends ends' same
    exact ⟨rfl, rest⟩
  · exact absurd (congrArg List.head? same) (head action ends)
  · exact absurd (congrArg List.head? same).symm (head action' ends')
  · obtain ⟨rfl, same⟩ := same
    obtain ⟨rfl, rest⟩ := distinct_code _ _ _ _ ends ends' same
    exact ⟨rfl, rest⟩

theorem Element.token_injective : Function.Injective Element.token := by
  rintro (_ | _) (_ | _) same <;> simp_all [token]

theorem distinct_elements : Distinct (fun u => ∀ e : Element, u.head? ≠ some e.token)
    (List.map Element.token) := by
  intro as bs u v ends ends' same
  induction as generalizing bs with
  | nil =>
    cases bs with
    | nil => exact ⟨rfl, same⟩
    | cons b bs => exact absurd (congrArg List.head? same) (ends b)
  | cons a as ih =>
    cases bs with
    | nil => exact absurd (congrArg List.head? same).symm (ends' a)
    | cons b bs =>
      simp only [List.map_cons, List.cons_append, List.cons.injEq] at same
      obtain ⟨rfl, rest⟩ := ih bs same.2
      exact ⟨by rw [Element.token_injective same.1], rest⟩

theorem distinct_body : Distinct (fun u => ∀ e : Element, u.head? ≠ some e.token)
    BodyTree.tokens := by
  intro a b u v ends ends' same
  cases a with
  | empty =>
    cases b with
    | empty => simpa [BodyTree.tokens] using same
    | elements first rest => cases first <;> simp [BodyTree.tokens, Element.token] at same
  | elements first rest =>
    cases b with
    | empty => cases first <;> simp [BodyTree.tokens, Element.token] at same
    | elements first' rest' =>
      obtain ⟨all, behind⟩ := distinct_elements _ _ _ _ ends ends' same
      obtain ⟨rfl, rfl⟩ := List.cons.inj all
      exact ⟨rfl, behind⟩

theorem distinct_production : Distinct EndsItem ProductionTree.tokens := by
  rintro ⟨settings, body, action⟩ ⟨settings', body', action'⟩ u v ends ends' same
  simp only [ProductionTree.tokens, List.append_assoc] at same
  have noSettings (body : BodyTree) (w : List Token) :
      (body.tokens ++ w).head? ≠ some .openConfig := by
    cases body with
    | empty => simp [BodyTree.tokens]
    | elements first rest => cases first <;> simp [BodyTree.tokens, Element.token]
  have noElement (action : Option String) {w : List Token} (ends : EndsItem w) (e : Element) :
      (codeTokens action ++ w).head? ≠ some e.token := by
    obtain ⟨t, rest, rfl, ends⟩ := ends
    cases action
    · rcases ends with rfl | rfl | rfl <;> cases e <;> simp [codeTokens, Element.token]
    · cases e <;> simp [codeTokens, Element.token]
  obtain ⟨rfl, bodies⟩ :=
    distinct_settingsTokens .openConfig _ _ _ _ (noSettings _ _) (noSettings _ _) same
  obtain ⟨rfl, codes⟩ := distinct_body _ _ _ _ (noElement _ ends) (noElement _ ends') bodies
  obtain ⟨rfl, rest⟩ := distinct_code _ _ _ _ ends ends' codes
  exact ⟨rfl, rest⟩

/-- No alternative begins with a bar. -/
theorem ProductionTree.head?_tokens (p : ProductionTree) (u : List Token) :
    (p.tokens ++ u).head? ≠ some .bar := by
  obtain ⟨_ | settings, body, action⟩ := p
  · rcases body with ⟨_ | _, _⟩ | _ <;> nofun
  · nofun

def StatementTree.keyword : StatementTree → Keyword
  | prec .. => .prec
  | terminal .. => .terminal
  | whitespace .. => .whitespace
  | nonterminal .. => .nonterminal
  | start _ => .start
  | rule .. => .rule
  | code place _ => place.keyword

theorem StatementTree.head?_tokens (s : StatementTree) (u : List Token) :
    (s.tokens ++ u).head? = some (.keyword s.keyword) := by
  cases s <;> rfl

theorem distinct_statement {s t : StatementTree} {u v : List Token}
    (same : s.tokens ++ .semicolon :: u = t.tokens ++ .semicolon :: v) : s = t ∧ u = v := by
  have keyword : s.keyword = t.keyword := by
    have heads := congrArg List.head? same
    rw [StatementTree.head?_tokens, StatementTree.head?_tokens] at heads
    simpa using heads
  rcases s with ⟨settings, name⟩ | ⟨settings, first, rest⟩ | ⟨first, rest⟩ | ⟨first, rest⟩ | name |
    ⟨left, bar, first, rest⟩ | ⟨_ | _, text⟩ <;>
  rcases t with ⟨settings', name'⟩ | ⟨settings', first', rest'⟩ | ⟨first', rest'⟩ |
    ⟨first', rest'⟩ | name' | ⟨left', bar', first', rest'⟩ | ⟨_ | _, text'⟩ <;>
  simp only [StatementTree.keyword, CodePlace.keyword, reduceCtorEq] at keyword <;>
  simp only [StatementTree.tokens, List.cons_append, List.append_assoc, List.nil_append,
    List.cons.injEq, true_and, Token.identifier.injEq, Token.code.injEq] at same
  case prec.prec =>
    obtain ⟨rfl, names⟩ := distinct_settingsTokens _ _ _ _ _ (by simp) (by simp) same
    simpa using names
  case terminal.terminal =>
    have head (d : TerminalDefinition) (ds : List TerminalDefinition) (w : List Token) :
        (separated .comma TerminalDefinition.tokens d ds ++ w).head? ≠ some .openBrace := nofun
    obtain ⟨rfl, lists⟩ := distinct_settingsTokens _ _ _ _ _ (head _ _ _) (head _ _ _) same
    obtain ⟨rfl, rfl, behind⟩ := distinct_separated distinct_definition
      (fun w => ⟨_, w, rfl, by simp⟩) (fun w => ⟨_, w, rfl, by simp⟩) (by simp) lists
    exact ⟨rfl, behind⟩
  case whitespace.whitespace =>
    have distinct : Distinct (fun _ => True) fun s : String => [Token.pattern s] := by
      rintro a b u v - - same
      simpa using same
    obtain ⟨rfl, rfl, behind⟩ := distinct_separated distinct (by simp) (by simp) (by simp) same
    exact ⟨rfl, behind⟩
  case nonterminal.nonterminal =>
    have distinct : Distinct (fun _ => True) fun s : String => [Token.identifier s] := by
      rintro a b u v - - same
      simpa using same
    obtain ⟨rfl, rfl, behind⟩ := distinct_separated distinct (by simp) (by simp) (by simp) same
    exact ⟨rfl, behind⟩
  case start.start => exact ⟨by rw [same.1], same.2⟩
  case rule.rule =>
    obtain ⟨rfl, same⟩ := same
    have head (p : ProductionTree) (ps : List ProductionTree) (w : List Token) :
        (separated .bar ProductionTree.tokens p ps ++ w).head? ≠ some .bar := by
      rw [separated, List.append_assoc]
      exact p.head?_tokens _
    have lists : bar = bar' ∧ separated .bar ProductionTree.tokens first rest ++ .semicolon :: u =
        separated .bar ProductionTree.tokens first' rest' ++ .semicolon :: v := by
      cases bar <;> cases bar'
      · exact ⟨rfl, same⟩
      · exact absurd (congrArg List.head? same) (head _ _ _)
      · exact absurd (congrArg List.head? same).symm (head _ _ _)
      · exact ⟨rfl, List.tail_eq_of_cons_eq same⟩
    obtain ⟨rfl, lists⟩ := lists
    obtain ⟨rfl, rfl, behind⟩ := distinct_separated distinct_production
      (fun w => ⟨_, w, rfl, by simp⟩) (fun w => ⟨_, w, rfl, by simp⟩) (by simp) lists
    exact ⟨rfl, behind⟩
  all_goals exact ⟨by rw [same.1], same.2⟩

/-- A file has one tree at most. -/
theorem treeTokens_injective : Function.Injective treeTokens := by
  intro ss
  induction ss with
  | nil =>
    rintro (_ | ⟨t, ts⟩) same
    · rfl
    · simp [treeTokens] at same
  | cons s ss ih =>
    rintro (_ | ⟨t, ts⟩) same
    · simp [treeTokens] at same
    · simp only [treeTokens, List.flatMap_cons, List.append_assoc, List.cons_append,
        List.nil_append] at same
      obtain ⟨rfl, rest⟩ := distinct_statement same
      rw [ih rest]

end Lalr.Source
