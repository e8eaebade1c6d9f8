import Lalr.Proofs.Source.Reading
import Mathlib.Data.List.Induction

/-! What has been read is the beginning of a tree, and every reader can go on to the end of one.
So reading accepts nothing but the texts of trees, and where it stops no file goes on in this
way. -/
namespace Lalr.Source

variable {r r' : Reader} {ss : List Statement} {t : Token} {u w : List Token}

def opened (separator : Token) (text : α → List Token) (done : List α) : List Token :=
  done.flatMap fun a => text a ++ [separator]

theorem opened_concat (separator : Token) (text : α → List Token) (done : List α) (a : α) :
    opened separator text (done ++ [a]) = opened separator text done ++ text a ++ [separator] := by
  simp [opened]

/-- The last item ends a list. -/
theorem exists_separated (separator : Token) (text : α → List Token) (done : List α) (a : α) :
    ∃ first rest, done ++ [a] = first :: rest ∧
      separated separator text first rest = opened separator text done ++ text a := by
  induction done with
  | nil => exact ⟨a, [], rfl, by simp [separated, opened]⟩
  | cons b done ih =>
    obtain ⟨first, rest, all, text_eq⟩ := ih
    refine ⟨b, first :: rest, by rw [List.cons_append, all], ?_⟩
    simp [separated_cons, text_eq, opened]

/-- The tokens behind the opening brace that lead to a reader of settings. -/
inductive SettingsReader.Spells : SettingsReader → List Token → Prop where
  | key (done : List Setting) : Spells (.key done) (opened .comma Setting.tokens done)
  | equals (done : List Setting) (k : String) :
    Spells (.equals done k) (opened .comma Setting.tokens done ++ [.identifier k])
  | value (done : List Setting) (k : String) :
    Spells (.value done k) (opened .comma Setting.tokens done ++ [.identifier k, .equals])
  | separator (done : List Setting) (last : Setting) :
    Spells (.separator (done ++ [last])) (opened .comma Setting.tokens done ++ last.tokens)

inductive SettingsReader.Progress.Spells (w : List Token) : SettingsReader.Progress → Prop where
  | reading {r : SettingsReader} (spells : r.Spells w) : Spells w (.reading r)
  | finished (tree : SettingsTree) (text : tree.tokens = w) : Spells w (.finished tree.settings)

theorem SettingsReader.Spells.next {r : SettingsReader} {p : SettingsReader.Progress}
    (spells : r.Spells w) (read : r.next? t = some p) : p.Spells (w ++ [t]) := by
  cases spells with
  | key done =>
    cases t <;> cases read
    case closeBrace.refl =>
      rcases List.eq_nil_or_concat done with rfl | ⟨done, last, rfl⟩
      · exact .finished .empty rfl
      · rw [List.concat_eq_append]
        obtain ⟨first, rest, all, text⟩ := exists_separated .comma Setting.tokens done last
        rw [opened_concat, ← text, all]
        exact .finished (.list first rest true) rfl
    case identifier.refl k => exact .reading (.equals done k)
  | equals done k =>
    cases t <;> cases read
    exact .reading (by simpa using Spells.value done k)
  | value done k =>
    cases t <;> cases read
    case identifier.refl v =>
      exact .reading (by simpa [Setting.tokens] using Spells.separator done ⟨k, v⟩)
  | separator done last =>
    cases t <;> cases read
    case comma.refl =>
      rw [← opened_concat]
      exact .reading (.key (done ++ [last]))
    case closeBrace.refl =>
      obtain ⟨first, rest, all, text⟩ := exists_separated .comma Setting.tokens done last
      rw [all, ← text]
      exact .finished (.list first rest false) (by simp [SettingsTree.tokens])

def terminalHead (tree : Option SettingsTree) : List Token :=
  .keyword .terminal :: settingsTokens .openBrace tree

def ruleHead (left : String) (bar : Bool) : List Token :=
  .keyword .rule :: .identifier left :: .define :: if bar then [.bar] else []

/-- The tokens since the last semicolon that lead to a reader. -/
inductive Reader.Spells : Reader → List Token → Prop where
  | declaration : Spells .declaration []
  | prec : Spells .prec [.keyword .prec]
  | precSettings {r : SettingsReader} {w : List Token} (inside : r.Spells w) :
    Spells (.precSettings r) (.keyword .prec :: .openBrace :: w)
  | precName (tree : SettingsTree) :
    Spells (.precName tree.settings) (.keyword .prec :: .openBrace :: tree.tokens)
  | terminal : Spells .terminal [.keyword .terminal]
  | terminalSettings {r : SettingsReader} {w : List Token} (inside : r.Spells w) :
    Spells (.terminalSettings r) (.keyword .terminal :: .openBrace :: w)
  | definition (tree : Option SettingsTree) (done : List TerminalDefinition) :
    Spells (.definition (givenSettings tree) done)
      (terminalHead tree ++ opened .comma TerminalDefinition.tokens done)
  | defined (tree : Option SettingsTree) (done : List TerminalDefinition) (name : String) :
    Spells (.defined (givenSettings tree) done name)
      (terminalHead tree ++ opened .comma TerminalDefinition.tokens done ++ [.identifier name])
  | definitionPattern (tree : Option SettingsTree) (done : List TerminalDefinition)
      (name : String) :
    Spells (.definitionPattern (givenSettings tree) done name)
      (terminalHead tree ++ opened .comma TerminalDefinition.tokens done ++
        [.identifier name, .equals])
  | patterned (tree : Option SettingsTree) (done : List TerminalDefinition)
      (name source : String) :
    Spells (.patterned (givenSettings tree) done name source)
      (terminalHead tree ++ opened .comma TerminalDefinition.tokens done ++
        [.identifier name, .equals, .pattern source])
  | definitions (tree : Option SettingsTree) (done : List TerminalDefinition)
      (last : TerminalDefinition) :
    Spells (.definitions (givenSettings tree) (done ++ [last]))
      (terminalHead tree ++ opened .comma TerminalDefinition.tokens done ++ last.tokens)
  | pattern (done : List String) :
    Spells (.pattern done) (.keyword .whitespace :: opened .comma ([.pattern ·]) done)
  | patterns (done : List String) (last : String) :
    Spells (.patterns (done ++ [last]))
      (.keyword .whitespace :: opened .comma ([.pattern ·]) done ++ [.pattern last])
  | nonterminal (done : List String) :
    Spells (.nonterminal done) (.keyword .nonterminal :: opened .comma ([.identifier ·]) done)
  | nonterminals (done : List String) (last : String) :
    Spells (.nonterminals (done ++ [last]))
      (.keyword .nonterminal :: opened .comma ([.identifier ·]) done ++ [.identifier last])
  | startName : Spells .startName [.keyword .start]
  | ruleName : Spells .ruleName [.keyword .rule]
  | ruleDefine (left : String) : Spells (.ruleDefine left) [.keyword .rule, .identifier left]
  | firstProduction (left : String) : Spells (.firstProduction left) (ruleHead left false)
  | production (left : String) (bar : Bool) (done : List ProductionTree) :
    Spells (.production left (done.map ProductionTree.production))
      (ruleHead left bar ++ opened .bar ProductionTree.tokens done)
  | productionSettings (left : String) (bar : Bool) (done : List ProductionTree)
      {r : SettingsReader} {w : List Token} (inside : r.Spells w) :
    Spells (.productionSettings left (done.map ProductionTree.production) r)
      (ruleHead left bar ++ opened .bar ProductionTree.tokens done ++ .openConfig :: w)
  | productionBody (left : String) (bar : Bool) (done : List ProductionTree)
      (tree : Option SettingsTree) :
    Spells (.productionBody left (done.map ProductionTree.production) (givenSettings tree))
      (ruleHead left bar ++ opened .bar ProductionTree.tokens done ++
        settingsTokens .openConfig tree)
  | elements (left : String) (bar : Bool) (done : List ProductionTree)
      (tree : Option SettingsTree) (first : Element) (rest : List Element) :
    Spells (.elements left (done.map ProductionTree.production) (givenSettings tree)
        (first :: rest))
      (ruleHead left bar ++ opened .bar ProductionTree.tokens done ++
        settingsTokens .openConfig tree ++ (first :: rest).map Element.token)
  | emptied (left : String) (bar : Bool) (done : List ProductionTree)
      (tree : Option SettingsTree) :
    Spells (.emptied left (done.map ProductionTree.production) (givenSettings tree))
      (ruleHead left bar ++ opened .bar ProductionTree.tokens done ++
        settingsTokens .openConfig tree ++ [.keyword .empty])
  | productions (left : String) (bar : Bool) (done : List ProductionTree)
      (last : ProductionTree) :
    Spells (.productions left ((done ++ [last]).map ProductionTree.production))
      (ruleHead left bar ++ opened .bar ProductionTree.tokens done ++ last.tokens)
  | code (place : CodePlace) : Spells (.code place) [.keyword place.keyword]
  | finished (tree : StatementTree) : Spells (.finished tree.statement) tree.tokens

inductive Reader.Progress.Spells (w : List Token) : Reader.Progress → Prop where
  | reading {r : Reader} (spells : r.Spells w) : Spells w (.reading r)
  | ended (tree : StatementTree) (text : tree.tokens ++ [.semicolon] = w) :
    Spells w (.ended tree.statement)

namespace Reader.Spells

variable {p : Reader.Progress} {t : Token}

/-- The keyword decides what is declared. -/
theorem next_declaration (read : Reader.declaration.next? t = some p) : p.Spells [t] := by
  cases t <;> try cases read
  case keyword k =>
    cases k <;> cases read
    case prec.refl => exact .reading prec
    case terminal.refl => exact .reading terminal
    case whitespace.refl => exact .reading (pattern [])
    case nonterminal.refl => exact .reading (nonterminal [])
    case start.refl => exact .reading startName
    case rule.refl => exact .reading ruleName
    case header.refl => exact .reading (code .header)
    case footer.refl => exact .reading (code .footer)

/-! ### Precedence levels -/

theorem next_prec (read : Reader.prec.next? t = some p) : p.Spells [.keyword .prec, t] := by
  cases t <;> cases read
  case openBrace.refl => exact .reading (precSettings (.key []))
  case identifier.refl s => exact .reading (finished (.prec none s))

theorem next_precSettings {r : SettingsReader} (inside : r.Spells w)
    (read : (Reader.precSettings r).next? t = some p) :
    p.Spells (.keyword .prec :: .openBrace :: (w ++ [t])) := by
  obtain ⟨q, found, rfl⟩ := Option.map_eq_some_iff.1 read
  cases inside.next found with
  | reading spells => exact .reading (precSettings spells)
  | finished tree text => exact text ▸ .reading (precName tree)

/-! ### Terminals -/

theorem next_definitions (tree : Option SettingsTree) (done : List TerminalDefinition)
    (last : TerminalDefinition)
    (read : definitionsNext? (givenSettings tree) (done ++ [last]) t = some p) :
    p.Spells
      (terminalHead tree ++ opened .comma TerminalDefinition.tokens done ++ last.tokens ++
        [t]) := by
  cases t <;> cases read
  case comma.refl =>
    exact .reading (by simpa [opened_concat] using definition tree (done ++ [last]))
  case semicolon.refl =>
    obtain ⟨first, rest, all, text⟩ := exists_separated .comma TerminalDefinition.tokens done last
    rw [all, List.append_assoc (terminalHead tree), ← text]
    exact .ended (.terminal tree first rest) rfl

theorem next_terminal (read : Reader.terminal.next? t = some p) :
    p.Spells [.keyword .terminal, t] := by
  cases t <;> cases read
  case openBrace.refl => exact .reading (terminalSettings (.key []))
  case identifier.refl s => exact .reading (defined none [] s)

theorem next_terminalSettings {r : SettingsReader} (inside : r.Spells w)
    (read : (Reader.terminalSettings r).next? t = some p) :
    p.Spells (.keyword .terminal :: .openBrace :: (w ++ [t])) := by
  obtain ⟨q, found, rfl⟩ := Option.map_eq_some_iff.1 read
  cases inside.next found with
  | reading spells => exact .reading (terminalSettings spells)
  | finished tree text =>
    have spells := definition (some tree) []
    rw [opened, List.flatMap_nil, List.append_nil, terminalHead, settingsTokens, text] at spells
    exact .reading spells

/-- Behind the name there may be a pattern, or code. -/
theorem next_defined (tree : Option SettingsTree) (done : List TerminalDefinition) (name : String)
    (read : (Reader.defined (givenSettings tree) done name).next? t = some p) :
    p.Spells (terminalHead tree ++ opened .comma TerminalDefinition.tokens done ++
      [.identifier name] ++ [t]) := by
  have ended (read : definitionsNext? (givenSettings tree) (done ++ [⟨name, none, none⟩]) t =
      some p) := next_definitions tree done ⟨name, none, none⟩ read
  cases t <;> first | exact ended read | cases read
  case equals.refl => exact .reading (by simpa using definitionPattern tree done name)
  case code.refl c =>
    exact .reading (by
      simpa [TerminalDefinition.tokens, patternTokens, codeTokens] using
        definitions tree done ⟨name, none, some c⟩)

theorem next_patterned (tree : Option SettingsTree) (done : List TerminalDefinition)
    (name source : String)
    (read : (Reader.patterned (givenSettings tree) done name source).next? t = some p) :
    p.Spells (terminalHead tree ++ opened .comma TerminalDefinition.tokens done ++
      [.identifier name, .equals, .pattern source] ++ [t]) := by
  have ended
      (read : definitionsNext? (givenSettings tree) (done ++ [⟨name, some source, none⟩]) t =
        some p) := next_definitions tree done ⟨name, some source, none⟩ read
  cases t <;> first | exact ended read | cases read
  case code.refl c =>
    exact .reading (by
      simpa [TerminalDefinition.tokens, patternTokens, codeTokens] using
        definitions tree done ⟨name, some source, some c⟩)

/-! ### White space and nonterminals -/

theorem next_patterns (done : List String) (last : String)
    (read : (Reader.patterns (done ++ [last])).next? t = some p) :
    p.Spells (.keyword .whitespace :: opened .comma ([.pattern ·]) done ++ [.pattern last] ++
      [t]) := by
  cases t <;> cases read
  case comma.refl => exact .reading (by simpa [opened_concat] using pattern (done ++ [last]))
  case semicolon.refl =>
    obtain ⟨first, rest, all, text⟩ := exists_separated .comma ([.pattern ·]) done last
    rw [all, List.cons_append, ← text]
    exact .ended (.whitespace first rest) rfl

theorem next_nonterminals (done : List String) (last : String)
    (read : (Reader.nonterminals (done ++ [last])).next? t = some p) :
    p.Spells (.keyword .nonterminal :: opened .comma ([.identifier ·]) done ++
      [.identifier last] ++ [t]) := by
  cases t <;> cases read
  case comma.refl => exact .reading (by simpa [opened_concat] using nonterminal (done ++ [last]))
  case semicolon.refl =>
    obtain ⟨first, rest, all, text⟩ := exists_separated .comma ([.identifier ·]) done last
    rw [all, List.cons_append, ← text]
    exact .ended (.nonterminal first rest) rfl

/-! ### Rules -/

theorem next_productions (left : String) (bar : Bool) (done : List ProductionTree)
    (last : ProductionTree)
    (read : productionsNext? left ((done ++ [last]).map ProductionTree.production) t = some p) :
    p.Spells
      (ruleHead left bar ++ opened .bar ProductionTree.tokens done ++ last.tokens ++ [t]) := by
  cases t <;> cases read
  case bar.refl =>
    exact .reading (by simpa [opened_concat] using production left bar (done ++ [last]))
  case semicolon.refl =>
    obtain ⟨first, rest, all, text⟩ := exists_separated .bar ProductionTree.tokens done last
    rw [all, List.append_assoc (ruleHead left bar), ← text]
    exact .ended (.rule left bar first rest) rfl

/-- Behind a body the alternative may end. -/
theorem next_uncoded (left : String) (bar : Bool) (done : List ProductionTree)
    (tree : Option SettingsTree) (body : BodyTree)
    (read : productionsNext? left
      (done.map ProductionTree.production ++ [⟨givenSettings tree, body.all, none⟩]) t = some p) :
    p.Spells (ruleHead left bar ++ opened .bar ProductionTree.tokens done ++
      settingsTokens .openConfig tree ++ body.tokens ++ [t]) := by
  have ended := next_productions left bar done ⟨tree, body, none⟩
    (by simpa [ProductionTree.production] using read)
  simpa [ProductionTree.tokens, codeTokens] using ended

/-- Behind a body there may be code. -/
theorem productions_coded (left : String) (bar : Bool) (done : List ProductionTree)
    (tree : Option SettingsTree) (body : BodyTree) (c : String) :
    Spells (.productions left
        (done.map ProductionTree.production ++ [⟨givenSettings tree, body.all, some c⟩]))
      (ruleHead left bar ++ opened .bar ProductionTree.tokens done ++
        settingsTokens .openConfig tree ++ body.tokens ++ [.code c]) := by
  have coded := productions left bar done ⟨tree, body, some c⟩
  simpa [ProductionTree.production, ProductionTree.tokens, codeTokens] using coded

theorem next_body (left : String) (bar : Bool) (done : List ProductionTree)
    (tree : Option SettingsTree)
    (read : bodyNext? left (done.map ProductionTree.production) (givenSettings tree) t = some p) :
    p.Spells (ruleHead left bar ++ opened .bar ProductionTree.tokens done ++
      settingsTokens .openConfig tree ++ [t]) := by
  cases t with
  | keyword k =>
    cases k <;> cases read
    case empty.refl => exact .reading (emptied left bar done tree)
    case error.refl => exact .reading (elements left bar done tree .error [])
  | identifier s =>
    cases read
    exact .reading (elements left bar done tree (.name s) [])
  | _ => cases read

theorem next_production (left : String) (bar : Bool) (done : List ProductionTree)
    (read : productionNext? left (done.map ProductionTree.production) t = some p) :
    p.Spells (ruleHead left bar ++ opened .bar ProductionTree.tokens done ++ [t]) := by
  by_cases config : t = .openConfig
  · subst config
    cases read
    exact .reading (productionSettings left bar done (.key []))
  · have body : bodyNext? left (done.map ProductionTree.production) [] t = some p := by
      cases t <;> first | exact read | exact absurd rfl config
    simpa [settingsTokens] using next_body left bar done none body

theorem next_firstProduction (left : String)
    (read : (Reader.firstProduction left).next? t = some p) :
    p.Spells (ruleHead left false ++ [t]) := by
  by_cases bar : t = .bar
  · subst bar
    cases read
    exact .reading (production left true [])
  · have first : productionNext? left [] t = some p := by
      cases t <;> first | exact read | exact absurd rfl bar
    simpa [opened] using next_production left false [] first

theorem next_productionSettings (left : String) (bar : Bool) (done : List ProductionTree)
    {r : SettingsReader} (inside : r.Spells w)
    (read : (Reader.productionSettings left (done.map ProductionTree.production) r).next? t =
      some p) :
    p.Spells (ruleHead left bar ++ opened .bar ProductionTree.tokens done ++ .openConfig :: w ++
      [t]) := by
  obtain ⟨q, found, rfl⟩ := Option.map_eq_some_iff.1 read
  cases inside.next found with
  | reading spells => exact .reading (by simpa using productionSettings left bar done spells)
  | finished tree text =>
    have spells := productionBody left bar done (some tree)
    rw [settingsTokens, text] at spells
    exact .reading (by simpa [givenSettings] using spells)

/-- Behind an element there may be another one, or code. -/
theorem next_elements (left : String) (bar : Bool) (done : List ProductionTree)
    (tree : Option SettingsTree) (first : Element) (rest : List Element)
    (read : (Reader.elements left (done.map ProductionTree.production) (givenSettings tree)
      (first :: rest)).next? t = some p) :
    p.Spells (ruleHead left bar ++ opened .bar ProductionTree.tokens done ++
      settingsTokens .openConfig tree ++ (first :: rest).map Element.token ++ [t]) := by
  have more (e : Element) := elements left bar done tree first (rest ++ [e])
  simp only [← List.cons_append, List.map_append, ← List.append_assoc] at more
  cases t with
  | identifier s =>
    cases read
    exact .reading (more (.name s))
  | keyword k =>
    cases k <;> cases read
    exact .reading (more .error)
  | code c =>
    cases read
    exact .reading (productions_coded left bar done tree (.elements first rest) c)
  | _ => exact next_uncoded left bar done tree (.elements first rest) read

theorem next_emptied (left : String) (bar : Bool) (done : List ProductionTree)
    (tree : Option SettingsTree)
    (read : (Reader.emptied left (done.map ProductionTree.production) (givenSettings tree)).next? t =
      some p) :
    p.Spells (ruleHead left bar ++ opened .bar ProductionTree.tokens done ++
      settingsTokens .openConfig tree ++ [.keyword .empty] ++ [t]) := by
  cases t with
  | code c =>
    cases read
    exact .reading (productions_coded left bar done tree .empty c)
  | _ => exact next_uncoded left bar done tree .empty read

/-- Whatever is read goes on in the way that leads to the next reader. -/
theorem next (spells : r.Spells w) (read : r.next? t = some p) : p.Spells (w ++ [t]) := by
  cases spells with
  | declaration => exact next_declaration read
  | prec => exact next_prec read
  | precSettings inside => exact next_precSettings inside read
  | precName tree =>
    cases t <;> cases read
    exact .reading (finished (.prec (some tree) _))
  | terminal => exact next_terminal read
  | terminalSettings inside => exact next_terminalSettings inside read
  | definition tree done =>
    cases t <;> cases read
    exact .reading (defined tree done _)
  | defined tree done name => exact next_defined tree done name read
  | definitionPattern tree done name =>
    cases t <;> cases read
    exact .reading (by simpa using patterned tree done name _)
  | patterned tree done name source => exact next_patterned tree done name source read
  | definitions tree done last => exact next_definitions tree done last read
  | pattern done =>
    cases t <;> cases read
    exact .reading (patterns done _)
  | patterns done last => exact next_patterns done last read
  | nonterminal done =>
    cases t <;> cases read
    exact .reading (nonterminals done _)
  | nonterminals done last => exact next_nonterminals done last read
  | startName =>
    cases t <;> cases read
    exact .reading (finished (.start _))
  | ruleName =>
    cases t <;> cases read
    exact .reading (ruleDefine _)
  | ruleDefine left =>
    cases t <;> cases read
    exact .reading (firstProduction left)
  | firstProduction left => exact next_firstProduction left read
  | production left bar done => exact next_production left bar done read
  | productionSettings left bar done inside =>
    exact next_productionSettings left bar done inside read
  | productionBody left bar done tree => exact next_body left bar done tree read
  | elements left bar done tree first rest =>
    exact next_elements left bar done tree first rest read
  | emptied left bar done tree => exact next_emptied left bar done tree read
  | productions left bar done last => exact next_productions left bar done last read
  | code place =>
    cases t <;> cases read
    exact .reading (finished (.code place _))
  | finished tree =>
    cases t <;> cases read
    exact .ended tree rfl

/-- Every run is along whole trees and then the beginning of one. -/
theorem run (spells : r.Spells u) (ran : r.run w = some (ss, r')) :
    ∃ trees v, trees.map StatementTree.statement = ss ∧ treeTokens trees ++ v = u ++ w ∧
      r'.Spells v := by
  induction w generalizing r u ss with
  | nil =>
    cases ran
    exact ⟨[], u, rfl, by simp [treeTokens], spells⟩
  | cons t rest ih =>
    rw [Reader.run] at ran
    cases read : r.next? t with
    | none =>
      rw [read] at ran
      cases ran
    | some p =>
      rw [read] at ran
      cases spells.next read with
      | reading spells' =>
        obtain ⟨trees, v, said, text, spells''⟩ := ih spells' ran
        exact ⟨trees, v, said, by simpa using text, spells''⟩
      | ended tree text =>
        obtain ⟨⟨ss', r''⟩, ran', eq⟩ := Option.map_eq_some_iff.1 ran
        cases eq
        obtain ⟨trees, v, rfl, text', spells'⟩ := ih .declaration ran'
        refine ⟨tree :: trees, v, rfl, ?_, spells'⟩
        rw [treeTokens, List.flatMap_cons, text, List.append_assoc, ← treeTokens, text']
        simp

end Reader.Spells

/-- Reading ends before a statement exactly behind the text of trees. -/
theorem Reader.run_eq_iff :
    declaration.run w = some (ss, declaration) ↔
      ∃ trees, treeTokens trees = w ∧ trees.map StatementTree.statement = ss := by
  constructor
  · intro ran
    obtain ⟨trees, v, said, text, spells⟩ := Spells.declaration.run ran
    cases spells
    exact ⟨trees, by simpa using text, said⟩
  · rintro ⟨trees, rfl, rfl⟩
    exact run_trees trees

/-! ## Every reader can go on to the end of a statement -/

def SettingsReader.completion : SettingsReader → List Token
  | key _ | separator _ => [.closeBrace]
  | equals _ _ => [.equals, .identifier "", .closeBrace]
  | value _ _ => [.identifier "", .closeBrace]

def Reader.completion : Reader → List Token
  | declaration => []
  | prec | precName _ | terminal | definition _ _ | nonterminal _ | startName =>
    [.identifier "", .semicolon]
  | precSettings r | terminalSettings r => r.completion ++ [.identifier "", .semicolon]
  | definitionPattern _ _ _ | pattern _ => [.pattern "", .semicolon]
  | ruleName => [.identifier "", .define, .keyword .empty, .semicolon]
  | ruleDefine _ => [.define, .keyword .empty, .semicolon]
  | firstProduction _ | production _ _ | productionBody _ _ _ => [.keyword .empty, .semicolon]
  | productionSettings _ _ r => r.completion ++ [.keyword .empty, .semicolon]
  | code _ => [.code "", .semicolon]
  | defined _ _ _ | patterned _ _ _ _ | definitions _ _ | patterns _ | nonterminals _
  | elements _ _ _ _ | emptied _ _ _ | productions _ _ | finished _ => [.semicolon]

theorem Reader.run_completion (r : Reader) :
    ∃ ss, r.run r.completion = some (ss, declaration) := by
  cases r with
  | precSettings r | terminalSettings r | productionSettings left done r =>
    cases r <;> exact ⟨_, rfl⟩
  | _ => exact ⟨_, rfl⟩

/-- Some file begins with these tokens. -/
def Viable (w : List Token) : Prop := ∃ trees more, treeTokens trees = w ++ more

/-- The tokens that can be read are those that a file can begin with. -/
theorem viable_iff : Viable w ↔ ∃ ss r, Reader.declaration.run w = some (ss, r) := by
  constructor
  · rintro ⟨trees, more, text⟩
    have ran := Reader.run_trees trees
    rw [text, Reader.run_append] at ran
    obtain ⟨p, first, -⟩ := Option.bind_eq_some_iff.1 ran
    exact ⟨p.1, p.2, first⟩
  · rintro ⟨ss, r, ran⟩
    obtain ⟨ss', rest⟩ := r.run_completion
    have all : Reader.declaration.run (w ++ r.completion) = some (ss ++ ss', .declaration) := by
      rw [Reader.run_append, ran, Option.bind_some, rest]
      rfl
    obtain ⟨trees, text, -⟩ := Reader.run_eq_iff.1 all
    exact ⟨trees, r.completion, text⟩

/-! ## Reading located tokens -/

section Located

variable {tokens before after : List Located} {x : Located} {last : Location}

/-- Tokens that all fit are a file or end too early. -/
theorem readStatements_of_run (ran : r.run (tokens.map Located.token) = some (ss, r')) :
    readStatements r last tokens = if r' = .declaration then .ok ss
      else .error ⟨(tokens.getLast?.map Located.last).getD last, .unexpectedEnd r'.expects⟩ := by
  induction tokens generalizing r ss last with
  | nil =>
    cases ran
    rfl
  | cons x rest ih =>
    have end_eq : ((x :: rest).getLast?.map Located.last).getD last =
        (rest.getLast?.map Located.last).getD x.last := by
      rw [List.getLast?_cons]
      cases rest.getLast? <;> rfl
    rw [List.map_cons, Reader.run] at ran
    rw [readStatements, end_eq]
    cases read : r.next? x.token with
    | none =>
      rw [read] at ran
      cases ran
    | some progress =>
      rw [read] at ran
      cases progress with
      | reading r₁ => exact ih ran
      | ended statement =>
        obtain ⟨⟨ss', r''⟩, ran', eq⟩ := Option.map_eq_some_iff.1 ran
        cases eq
        dsimp only
        rw [ih ran']
        split <;> rfl

/-- A token that does not fit is reported. -/
theorem readStatements_of_stuck (ran : r.run (before.map Located.token) = some (ss, r'))
    (stuck : r'.next? x.token = none) : readStatements r last (before ++ x :: after) =
      .error ⟨x.first, .unexpected r'.expects x.token⟩ := by
  induction before generalizing r ss last with
  | nil =>
    cases ran
    rw [List.nil_append, readStatements, stuck]
  | cons y rest ih =>
    rw [List.map_cons, Reader.run] at ran
    rw [List.cons_append, readStatements]
    cases read : r.next? y.token with
    | none =>
      rw [read] at ran
      cases ran
    | some progress =>
      rw [read] at ran
      cases progress with
      | reading r₁ => exact ih ran
      | ended statement =>
        obtain ⟨⟨ss', r''⟩, ran', eq⟩ := Option.map_eq_some_iff.1 ran
        cases eq
        dsimp only
        rw [ih ran']
        rfl

theorem exists_stuck (failed : r.run (tokens.map Located.token) = none) :
    ∃ before x after ss r', tokens = before ++ x :: after ∧
      r.run (before.map Located.token) = some (ss, r') ∧ r'.next? x.token = none := by
  induction tokens using List.reverseRecOn with
  | nil => cases failed
  | append_singleton tokens x ih =>
    cases ran : r.run (tokens.map Located.token) with
    | none =>
      obtain ⟨before, y, after, ss, r', rfl, first, stuck⟩ := ih ran
      exact ⟨before, y, after ++ [x], ss, r', by simp, first, stuck⟩
    | some p =>
      refine ⟨tokens, x, [], p.1, p.2, rfl, ran, ?_⟩
      rw [List.map_append, Reader.run_append, ran, Option.bind_some,
        Option.map_eq_none_iff] at failed
      cases read : p.2.next? x.token with
      | none => rfl
      | some q => cases q <;> simp [Reader.run, read] at failed

/-- Reading accepts the texts of trees, each of which has one tree only, and yields what the
tree says. Otherwise it fails, at the first token with which no file goes on, or behind all tokens
if some file goes on there. -/
theorem statements_eq_tree (tokens : List Located) :
    (∀ ss, statements tokens = .ok ss ↔ ∃ trees, treeTokens trees = tokens.map Located.token ∧
      trees.map StatementTree.statement = ss) ∧
    Function.Injective treeTokens ∧
    ((¬ ∃ trees, treeTokens trees = tokens.map Located.token) → ∃ e expected,
      statements tokens = .error e ∧
      ((∃ before x after, tokens = before ++ x :: after ∧ Viable (before.map Located.token) ∧
          ¬ Viable ((before ++ [x]).map Located.token) ∧
          e = ⟨x.first, .unexpected expected x.token⟩) ∨
        (Viable (tokens.map Located.token) ∧ ∃ x, tokens.getLast? = some x ∧
          e.location = x.last ∧
          e.message = x.last.text ++ ": " ++
            ("expected " ++ expected.text ++ ", found end of input")))) := by
  have accepts (ss : List Statement) : statements tokens = .ok ss ↔
      Reader.declaration.run (tokens.map Located.token) = some (ss, .declaration) := by
    cases ran : Reader.declaration.run (tokens.map Located.token) with
    | none =>
      obtain ⟨before, x, after, ss', r', rfl, first, stuck⟩ := exists_stuck ran
      rw [statements, readStatements_of_stuck first stuck]
      simp
    | some p =>
      rw [statements, readStatements_of_run ran]
      by_cases done : p.2 = .declaration <;> simp [done, Prod.ext_iff]
  refine ⟨fun ss => (accepts ss).trans Reader.run_eq_iff, treeTokens_injective, fun rejected => ?_⟩
  cases ran : Reader.declaration.run (tokens.map Located.token) with
  | none =>
    obtain ⟨before, x, after, ss, r, rfl, first, stuck⟩ := exists_stuck ran
    refine ⟨_, r.expects, readStatements_of_stuck first stuck, .inl ⟨before, x, after, rfl,
      viable_iff.2 ⟨ss, r, first⟩, fun viable => ?_, rfl⟩⟩
    obtain ⟨ss', r', further⟩ := viable_iff.1 viable
    rw [List.map_append, Reader.run_append, first] at further
    simp [Reader.run, stuck] at further
  | some p =>
    obtain ⟨ss, r⟩ := p
    have unfinished : r ≠ .declaration := by
      rintro rfl
      obtain ⟨trees, text, -⟩ := Reader.run_eq_iff.1 ran
      exact rejected ⟨trees, text⟩
    -- No token at all is a file, so that there is a last one.
    have some_token : tokens ≠ [] := by
      rintro rfl
      exact rejected ⟨[], rfl⟩
    have last := List.getLast?_eq_some_getLast some_token
    have failed : statements tokens =
        .error ⟨(tokens.getLast some_token).last, .unexpectedEnd r.expects⟩ := by
      rw [statements, readStatements_of_run ran, if_neg unfinished, last]
      rfl
    exact ⟨_, r.expects, failed, .inr ⟨viable_iff.2 ⟨ss, r, ran⟩, _, last, rfl, rfl⟩⟩

end Located

end Lalr.Source
