import Lalr.Proofs.Grammar.Scopes

/-! Statement by statement, lowering declares what is written. A grammar that a file defines is the
one that the file says, whatever the order of statements of different groups. -/
namespace Lalr

open Source Declaration

namespace Scope

variable {s s' : Scope} {P : String → Option Precedence} {steps : List Declaration}
  {w : Written} {name : String} {precedence : Option Precedence}

theorem Holds.modest (h : s.Holds P steps w) (terminals : w.terminals.length ≤ 65000)
    (nonterminals : s.nonterminals.keys.length ≤ 65000) (rules : w.rules.length ≤ 65000) :
    Modest steps where
  terminals := by
    have length := congrArg List.length h.terminals
    rw [List.length_map, List.length_map] at length
    omega
  nonterminals := h.nonterminal_keys ▸ nonterminals
  rules := h.rules.length_eq ▸ rules

theorem declareTerminal_holds {settings : List Setting} {d : TerminalDefinition}
    (h : s.Holds P steps w) (modest : Modest steps)
    (level : (lastSetting "prec" settings).map P = precedence.map some)
    (declared : declareTerminal precedence s d = .ok s') :
    s.Extends s' ∧ s'.nonterminals = s.nonterminals ∧ ∃ steps', s'.Holds P steps' { w with
      terminals := w.terminals ++ [(settings, d)]
      patterns := w.patterns ++ (d.pattern.map fun p => (some d.name, p)).toList } := by
  obtain ⟨name, pattern, action⟩ := d
  obtain ⟨⟨t, s₀⟩, named, declared⟩ := bind_eq_ok declared
  obtain ⟨b, done, rfl⟩ := build_eq_ok named
  have first := h.terminal modest level pattern done
  have entry : ∃ entries terminal, b.terminals.toList = entries ++ [(t, terminal)] := by
    obtain ⟨-, rfl, rfl⟩ := Builder.terminal_cases done
    exact ⟨_, _, h.builder.numbered.terminals.toList_insert _⟩
  obtain ⟨entries, terminal, entry⟩ := entry
  have extends_ (b' : Builder) := h.extends_terminal (Builder.terminal_cases done).1 b' t
  have known : (s.terminals.insert name t).get? name = some t := by
    rw [OrderedMap.get?_insert, if_pos rfl]
  cases pattern with
  | none =>
    obtain ⟨s₁, second, declared⟩ := bind_eq_ok declared
    cases second
    cases action with
    | none =>
      cases declared
      exact ⟨extends_ _, rfl, _, by simpa using first⟩
    | some code =>
      obtain ⟨s₂, third, declared⟩ := bind_eq_ok declared
      obtain ⟨b₂, coded, rfl⟩ := perform_eq_ok third
      cases declared
      have few := modest.few [.terminal name precedence, .terminalAction t code] (by simp)
      rw [List.append_cons] at few
      exact ⟨extends_ _, rfl, _, by simpa using first.terminalAction few rfl entry coded⟩
  | some p =>
    obtain ⟨s₁, second, declared⟩ := bind_eq_ok declared
    obtain ⟨b₁, attached, rfl⟩ := perform_eq_ok second
    have few := modest.few [.terminal name precedence, .token t p] (by simp)
    rw [List.append_cons] at few
    have next := first.pattern few (Builder.call_map_of_ok attached _) rfl (show PatternMeans _ (some name) t from known)
    cases action with
    | none =>
      cases declared
      exact ⟨extends_ _, rfl, _, next⟩
    | some code =>
      obtain ⟨s₂, third, declared⟩ := bind_eq_ok declared
      obtain ⟨b₂, coded, rfl⟩ := perform_eq_ok third
      cases declared
      have few := modest.few [.terminal name precedence, .token t p, .terminalAction t code]
        (by simp)
      rw [List.append_cons, List.append_cons] at few
      obtain ⟨-, -, rfl⟩ := Builder.token_cases attached
      exact ⟨extends_ _, rfl, _, next.terminalAction few rfl entry coded⟩

/-- What the element stands for, declared by need. -/
theorem element_holds {e : Element} {X : Symbol} (h : s.Holds P steps w) (modest : Modest steps)
    (declared : s.element e = .ok (X, s')) :
    s.Extends s' ∧ s'.ElementMeans e X ∧ s'.terminals = s.terminals ∧
      (∀ name ∈ s'.nonterminals.keys, name ∈ s.nonterminals.keys ∨
        e = .name name ∧ name ∉ s.terminals.keys) ∧
      ∃ steps', s'.Holds P steps' w := by
  unfold element at declared
  split at declared
  · cases declared
    exact ⟨.refl s, rfl, rfl, fun _ => .inl, steps, h⟩
  next name =>
  split at declared
  · next t known =>
    cases declared
    exact ⟨.refl s, known, rfl, fun _ => .inl, steps, h⟩
  split at declared
  · next n known =>
    cases declared
    exact ⟨.refl s, known, rfl, fun _ => .inl, steps, h⟩
  · obtain ⟨⟨n, s₁⟩, done, eq⟩ := map_eq_ok declared
    cases eq
    obtain ⟨holds, extends_, means, keys, same, other⟩ := h.nonterminal modest done
    refine ⟨extends_, means, same, fun name' member => ?_, _, holds⟩
    rw [keys] at member
    rcases List.mem_append.1 member with old | new
    · exact .inl old
    · obtain rfl := List.mem_singleton.1 new
      exact .inr ⟨rfl, other⟩

/-- All names of nonterminals are among these, and nothing else takes up too much room. -/
structure Fits (s : Scope) (all : List String) (w : Written) : Prop where
  names : ∀ name ∈ s.nonterminals.keys, name ∈ all
  few : all.dedup.length ≤ 65000
  terminals : w.terminals.length ≤ 65000
  rules : w.rules.length ≤ 65000

theorem Fits.modest {all : List String} (fits : s.Fits all w) (h : s.Holds P steps w) :
    Modest steps :=
  h.modest fits.terminals (length_le_dedup s.nonterminals.keys_nodup fits.names fits.few) fits.rules

def Knows (s : Scope) (name : String) : Prop :=
  name ∈ s.terminals.keys ∨ name ∈ s.nonterminals.keys

theorem Knows.mono (extends_ : s.Extends s') (knows : s.Knows name) : s'.Knows name := by
  rcases knows with member | member
  · obtain ⟨t, known⟩ := OrderedMap.mem_keys_iff.1 member
    exact .inl (OrderedMap.mem_keys_of_get? (extends_.terminals name t known))
  · obtain ⟨n, known⟩ := OrderedMap.mem_keys_iff.1 member
    exact .inr (OrderedMap.mem_keys_of_get? (extends_.nonterminals name n known))

theorem Means.knows {X : Symbol} (means : s.Means name X) : s.Knows name := by
  cases X with
  | terminal t => exact .inl (OrderedMap.mem_keys_of_get? means)
  | nonterminal n => exact .inr (OrderedMap.mem_keys_of_get? means)

theorem elements_holds {es : List Element} {Xs : List Symbol} {all : List String}
    (h : s.Holds P steps w) (fits : s.Fits all w)
    (mentioned : ∀ name, .name name ∈ es → name ∉ s.terminals.keys → name ∈ all)
    (declared : s.elements es = .ok (Xs, s')) :
    s.Extends s' ∧ List.Forall₂ s'.ElementMeans es Xs ∧ s'.terminals = s.terminals ∧
      s'.Fits all w ∧ ∃ steps', s'.Holds P steps' w := by
  induction es generalizing s steps Xs with
  | nil =>
    cases declared
    exact ⟨.refl _, .nil, rfl, fits, steps, h⟩
  | cons e es ih =>
    obtain ⟨⟨X, s₁⟩, first, declared⟩ := bind_eq_ok declared
    obtain ⟨⟨Ys, s₂⟩, others, declared⟩ := bind_eq_ok declared
    cases declared
    obtain ⟨extends_, means, same, new, steps₁, holds⟩ := element_holds h (fits.modest h) first
    have fits₁ : s₁.Fits all w := { fits with
      names := fun name member => by
        rcases new name member with old | ⟨rfl, other⟩
        · exact fits.names name old
        · exact mentioned name (List.mem_cons_self ..) other }
    obtain ⟨extends', means', same', fits', known⟩ := ih holds fits₁
      (fun name member other => mentioned name (List.mem_cons_of_mem _ member) (same ▸ other))
      others
    exact ⟨extends_.trans extends', .cons (means.mono extends') means', same'.trans same, fits',
      known⟩

theorem production_holds {all : List String} {left : String} {n : NonterminalId} {p : Production}
    (h : s.Holds P steps w) (fits : s.Fits all w) (known : s.nonterminals.get? left = some n)
    (mentioned : ∀ name, .name name ∈ p.elements → name ∉ s.terminals.keys → name ∈ all)
    (declared : production n s p = .ok s') :
    s.Extends s' ∧ s'.terminals = s.terminals ∧ (∀ name ∈ s'.nonterminals.keys, name ∈ all) ∧
      (∀ name, .name name ∈ p.elements → s'.Knows name) ∧
      ∃ steps', s'.Holds P steps' { w with rules := w.rules ++ [(left, p)] } := by
  obtain ⟨settings, elements, action⟩ := p
  obtain ⟨precedence, level, declared⟩ := bind_eq_ok declared
  obtain ⟨⟨right, s₁⟩, first, declared⟩ := bind_eq_ok declared
  obtain ⟨extends_, means, same, fits₁, steps₁, h₁⟩ := elements_holds h fits mentioned first
  have modest := fits₁.modest h₁
  have knows (name : String) (member : .name name ∈ elements) : s₁.Knows name := by
    obtain ⟨X, -, meaning⟩ := exists_of_forall₂ means member
    exact Means.knows meaning
  have stands : s₁.Stands P ((n, right), precedence) (left, ⟨settings, elements, none⟩) := by
    refine ⟨extends_.nonterminals _ _ known, means, ?_⟩
    have level := productionPrecedence_eq level
    rwa [funext h.precedences] at level
  obtain ⟨⟨r, s₂⟩, second, declared⟩ := bind_eq_ok declared
  obtain ⟨b, done, rfl⟩ := build_eq_ok second
  have ruled := h₁.rule modest stands done
  cases action with
  | none =>
    cases declared
    exact ⟨extends_.trans (.rebuild _ _), same, fits₁.names, knows, _, ruled⟩
  | some code =>
    obtain ⟨b₂, coded, rfl⟩ := perform_eq_ok declared
    have few := modest.few [.rule n right precedence, .action r code] (by simp)
    rw [List.append_cons] at few
    obtain ⟨-, -, rfl, rfl⟩ := Builder.rule_cases done
    exact ⟨extends_.trans (.rebuild _ _), same, fits₁.names, knows, _,
      ruled.action few rfl (h₁.builder.numbered.rules.toList_insert _) coded⟩

end Scope

def Written.append (w v : Written) : Written where
  terminals := w.terminals ++ v.terminals
  patterns := w.patterns ++ v.patterns
  rules := w.rules ++ v.rules
  starts := w.starts ++ v.starts
  header := w.header ++ v.header
  footer := w.footer ++ v.footer

theorem written_append (statements more : List Statement) :
    written (statements ++ more) = (written statements).append (written more) := by
  simp [written, Written.append, writtenTerminals, writtenPatterns, writtenRules, startNames,
    writtenCode]

section One

variable (settings : List Setting) (definitions : List TerminalDefinition) (patterns : List String)
  (names : List String) (name left text : String) (productions : List Production)

@[simp] theorem written_terminal : written [.terminal settings definitions] =
    ⟨definitions.map (settings, ·),
      definitions.filterMap fun d => d.pattern.map fun p => (some d.name, p), [], [], [], []⟩ := by
  simp [written, writtenTerminals, writtenPatterns, writtenRules, startNames, writtenCode]

@[simp] theorem written_whitespace : written [.whitespace patterns] =
    ⟨[], patterns.map (none, ·), [], [], [], []⟩ := by
  simp [written, writtenTerminals, writtenPatterns, writtenRules, startNames, writtenCode]

@[simp] theorem written_nonterminal : written [.nonterminal names] = ⟨[], [], [], [], [], []⟩ := by
  simp [written, writtenTerminals, writtenPatterns, writtenRules, startNames, writtenCode]

@[simp] theorem written_rule : written [.rule left productions] =
    ⟨[], [], productions.map (left, ·), [], [], []⟩ := by
  simp [written, writtenTerminals, writtenPatterns, writtenRules, startNames, writtenCode]

@[simp] theorem written_start : written [.start name] = ⟨[], [], [], [name], [], []⟩ := by
  simp [written, writtenTerminals, writtenPatterns, writtenRules, startNames, writtenCode]

@[simp] theorem written_header : written [.code .header text] = ⟨[], [], [], [], [text], []⟩ := by
  simp [written, writtenTerminals, writtenPatterns, writtenRules, startNames, writtenCode]

@[simp] theorem written_footer : written [.code .footer text] = ⟨[], [], [], [], [], [text]⟩ := by
  simp [written, writtenTerminals, writtenPatterns, writtenRules, startNames, writtenCode]

end One

namespace Scope

variable {s s' : Scope} {P : String → Option Precedence} {steps : List Declaration}
  {w : Written} {all : List String} {precedence : Option Precedence}

theorem definitions_holds {settings : List Setting} {definitions : List TerminalDefinition}
    (h : s.Holds P steps w) (fits : s.Fits all w)
    (room : w.terminals.length + definitions.length ≤ 65000)
    (level : (lastSetting "prec" settings).map P = precedence.map some)
    (declared : definitions.foldlM (declareTerminal precedence) s = .ok s') :
    s.Extends s' ∧ s'.nonterminals = s.nonterminals ∧ ∃ steps',
      s'.Holds P steps' (w.append (written [.terminal settings definitions])) := by
  induction definitions generalizing s steps w with
  | nil =>
    cases declared
    exact ⟨.refl _, rfl, steps, by simpa [Written.append] using h⟩
  | cons d rest ih =>
    rw [List.foldlM_cons] at declared
    obtain ⟨s₁, first, others⟩ := bind_eq_ok declared
    obtain ⟨extends_, same, steps₁, h₁⟩ := declareTerminal_holds h (fits.modest h) level first
    rw [List.length_cons] at room
    have room₁ : (w.terminals ++ [(settings, d)]).length + rest.length ≤ 65000 := by
      rw [List.length_append, List.length_singleton]
      omega
    obtain ⟨extends', same', steps', h'⟩ := ih h₁
      { fits with names := same ▸ fits.names, terminals := Nat.le_of_add_right_le room₁ }
      room₁ others
    refine ⟨extends_.trans extends', same'.trans same, steps', ?_⟩
    cases pattern : d.pattern <;> simpa [Written.append, pattern] using h'

theorem whitespace_holds {patterns : List String} (h : s.Holds P steps w) (fits : s.Fits all w)
    (declared : patterns.foldlM (fun s p => s.perform (.whitespace p)) s = .ok s') :
    s'.terminals = s.terminals ∧ s'.nonterminals = s.nonterminals ∧ ∃ steps',
      s'.Holds P steps' (w.append (written [.whitespace patterns])) := by
  induction patterns generalizing s steps w with
  | nil =>
    cases declared
    exact ⟨rfl, rfl, steps, by simpa [Written.append] using h⟩
  | cons p rest ih =>
    rw [List.foldlM_cons] at declared
    obtain ⟨s₁, first, others⟩ := bind_eq_ok declared
    obtain ⟨b, attached, rfl⟩ := perform_eq_ok first
    have h₁ := h.pattern ((fits.modest h).few [.whitespace p] (by simp))
      (Builder.call_map_of_ok attached _) rfl
      (show s.PatternMeans none .whitespace from rfl)
    obtain ⟨same, same', steps', h'⟩ := ih h₁ { fits with } others
    exact ⟨same, same', steps', by simpa [Written.append] using h'⟩

theorem nonterminals_holds {names : List String} (h : s.Holds P steps w) (fits : s.Fits all w)
    (mentioned : ∀ name ∈ names, name ∉ s.terminals.keys → name ∈ all)
    (declared : names.foldlM (fun s name => (s.declareNonterminal name).map Prod.snd) s = .ok s') :
    s.Extends s' ∧ s'.terminals = s.terminals ∧ (∀ name ∈ s'.nonterminals.keys, name ∈ all) ∧
      (∀ name ∈ names, s'.Knows name) ∧
      ∃ steps', s'.Holds P steps' (w.append (written [.nonterminal names])) := by
  induction names generalizing s steps with
  | nil =>
    cases declared
    exact ⟨.refl _, rfl, fits.names, nofun, steps, by simpa [Written.append] using h⟩
  | cons name rest ih =>
    rw [List.foldlM_cons] at declared
    obtain ⟨s₁, first, others⟩ := bind_eq_ok declared
    obtain ⟨⟨n, s₁⟩, done, rfl⟩ := map_eq_ok first
    obtain ⟨h₁, extends_, known, keys, same, other⟩ := h.nonterminal (fits.modest h) done
    have fits₁ : s₁.Fits all w := { fits with
      names := fun name' member => by
        rw [keys] at member
        rcases List.mem_append.1 member with old | new
        · exact fits.names name' old
        · obtain rfl := List.mem_singleton.1 new
          exact mentioned name' (List.mem_cons_self ..) other }
    obtain ⟨extends', same', names', knows', steps', h'⟩ := ih h₁ fits₁
      (fun name' member other' => mentioned name' (List.mem_cons_of_mem _ member) (same ▸ other'))
      others
    refine ⟨extends_.trans extends', same'.trans same, names', ?_, steps', by simpa using h'⟩
    intro name' member
    rcases List.mem_cons.1 member with rfl | member
    · exact Knows.mono extends' (.inr (OrderedMap.mem_keys_of_get? known))
    · exact knows' name' member

theorem productions_holds {left : String} {n : NonterminalId} {productions : List Production}
    (h : s.Holds P steps w) (fits : s.Fits all w)
    (room : w.rules.length + productions.length ≤ 65000)
    (known : s.nonterminals.get? left = some n)
    (mentioned : ∀ p ∈ productions, ∀ name, .name name ∈ p.elements → name ∉ s.terminals.keys →
      name ∈ all)
    (declared : productions.foldlM (production n) s = .ok s') :
    s.Extends s' ∧ s'.terminals = s.terminals ∧ (∀ name ∈ s'.nonterminals.keys, name ∈ all) ∧
      (∀ p ∈ productions, ∀ name, .name name ∈ p.elements → s'.Knows name) ∧
      ∃ steps', s'.Holds P steps' (w.append (written [.rule left productions])) := by
  induction productions generalizing s steps w with
  | nil =>
    cases declared
    exact ⟨.refl _, rfl, fits.names, nofun, steps, by simpa [Written.append] using h⟩
  | cons p rest ih =>
    rw [List.foldlM_cons] at declared
    obtain ⟨s₁, first, others⟩ := bind_eq_ok declared
    obtain ⟨extends_, same, names, knows, steps₁, h₁⟩ := production_holds h fits known
      (mentioned p (List.mem_cons_self ..)) first
    rw [List.length_cons] at room
    have room₁ : (w.rules ++ [(left, p)]).length + rest.length ≤ 65000 := by
      rw [List.length_append, List.length_singleton]
      omega
    obtain ⟨extends', same', names', knows', steps', h'⟩ := ih h₁
      { fits with names := names, rules := Nat.le_of_add_right_le room₁ } room₁
      (extends_.nonterminals _ _ known)
      (fun q member name inside other =>
        mentioned q (List.mem_cons_of_mem _ member) name inside (same ▸ other)) others
    refine ⟨extends_.trans extends', same'.trans same, names', ?_, steps',
      by simpa [Written.append] using h'⟩
    intro q member name inside
    rcases List.mem_cons.1 member with rfl | member
    · exact (knows name inside).mono extends'
    · exact knows' q member name inside

theorem leftSide_holds {left : String} {n : NonterminalId} (h : s.Holds P steps w)
    (fits : s.Fits all w) (mentioned : left ∉ s.terminals.keys → left ∈ all)
    (declared : s.leftSide left = .ok (n, s')) :
    s.Extends s' ∧ s'.nonterminals.get? left = some n ∧ s'.terminals = s.terminals ∧
      s'.Fits all w ∧ ∃ steps', s'.Holds P steps' w := by
  unfold leftSide at declared
  split at declared
  · next m known =>
    cases declared
    exact ⟨.refl _, known, rfl, fits, steps, h⟩
  · split at declared
    · cases declared
    · obtain ⟨holds, extends_, known, keys, same, other⟩ := h.nonterminal (fits.modest h) declared
      refine ⟨extends_, known, same, { fits with names := fun name member => ?_ }, _, holds⟩
      rw [keys] at member
      rcases List.mem_append.1 member with old | new
      · exact fits.names name old
      · obtain rfl := List.mem_singleton.1 new
        exact mentioned other

structure Reads (P : String → Option Precedence) (all : List String) (s : Scope)
    (done : List Statement) : Prop where
  holds : ∃ steps, s.Holds P steps (written done)
  names : ∀ name ∈ s.nonterminals.keys, name ∈ all
  knows : ∀ name ∈ mentionedNames done, s.Knows name

theorem mem_mentionedNames_append {done more : List Statement} :
    name ∈ mentionedNames (done ++ more) ↔
      name ∈ mentionedNames done ∨ name ∈ mentionedNames more := by
  simp only [mentionedNames, declaredNames, usedNames, List.flatMap_append, List.mem_append]
  tauto

theorem Reads.statement {done : List Statement} {st : Statement} (h : s.Reads P all done)
    (few : all.dedup.length ≤ 65000) (terminals : (writtenTerminals (done ++ [st])).length ≤ 65000)
    (rules : (writtenRules (done ++ [st])).length ≤ 65000)
    (mentioned : ∀ name ∈ mentionedNames [st], name ∉ s.terminals.keys → name ∈ all)
    (later : st.group ≠ 0) (declared : s.statement st = .ok s') :
    s'.Reads P all (done ++ [st]) := by
  obtain ⟨steps, holds⟩ := h.holds
  have terminals' : (writtenTerminals done).length + (writtenTerminals [st]).length ≤ 65000 := by
    simpa [writtenTerminals] using terminals
  have rules' : (writtenRules done).length + (writtenRules [st]).length ≤ 65000 := by
    simpa [writtenRules] using rules
  have fits : s.Fits all (written done) :=
    ⟨h.names, few, Nat.le_of_add_right_le terminals', Nat.le_of_add_right_le rules'⟩
  have modest := fits.modest holds
  -- What is left to show of each statement: what it declares and that its names are known.
  have conclude (extends_ : s.Extends s') (names : ∀ name ∈ s'.nonterminals.keys, name ∈ all)
      (knows : ∀ name ∈ mentionedNames [st], s'.Knows name) (steps' : List Declaration)
      (holds' : s'.Holds P steps' ((written done).append (written [st]))) :
      s'.Reads P all (done ++ [st]) := by
    refine ⟨⟨steps', written_append done [st] ▸ holds'⟩, names, fun name member => ?_⟩
    rcases mem_mentionedNames_append.1 member with old | new
    · exact (h.knows name old).mono extends_
    · exact knows name new
  cases st with
  | prec => exact absurd rfl later
  | terminal settings definitions =>
    obtain ⟨precedence, level, declared⟩ := bind_eq_ok declared
    have level := terminalPrecedence_eq level
    rw [funext holds.precedences] at level
    obtain ⟨extends_, same, steps', holds'⟩ := definitions_holds holds fits
      (by simpa [writtenTerminals, written] using terminals') level declared
    refine conclude extends_ (same ▸ h.names) ?_ steps' holds'
    simp [mentionedNames, declaredNames, usedNames]
  | whitespace patterns =>
    obtain ⟨same, same', steps', holds'⟩ := whitespace_holds holds fits declared
    refine conclude ⟨fun _ _ => same ▸ id, fun _ _ => same' ▸ id⟩ (same' ▸ h.names) ?_ steps' holds'
    simp [mentionedNames, declaredNames, usedNames]
  | nonterminal names =>
    obtain ⟨extends_, -, names', knows, steps', holds'⟩ :=
      nonterminals_holds holds fits (fun name member => mentioned name (by
        simpa [mentionedNames, declaredNames, usedNames] using member)) declared
    refine conclude extends_ names' (fun name member => knows name ?_) steps' holds'
    simpa [mentionedNames, declaredNames, usedNames] using member
  | start name =>
    rw [Scope.statement] at declared
    split at declared
    · next n known =>
      obtain ⟨b, started, rfl⟩ := perform_eq_ok declared
      have holds' := holds.startSymbol (modest.few _ (by simp)) known started
      refine conclude (.rebuild _ _) h.names ?_ _ (by simpa [Written.append] using holds')
      simp [mentionedNames, declaredNames, usedNames]
    · cases declared
  | rule left productions =>
    obtain ⟨⟨n, s₁⟩, first, declared⟩ := bind_eq_ok declared
    have inside : ∀ p ∈ productions, ∀ name, .name name ∈ p.elements →
        name ∈ mentionedNames [.rule left productions] := by
      intro p member name element
      simp only [mentionedNames, declaredNames, usedNames, List.flatMap_singleton, List.nil_append,
        List.mem_cons, List.mem_flatMap, List.mem_filterMap]
      exact .inr ⟨p, member, .name name, element, rfl⟩
    obtain ⟨extends_, known, same, fits₁, steps₁, holds₁⟩ := leftSide_holds holds fits
      (mentioned left (by simp [mentionedNames, usedNames])) first
    obtain ⟨extends', -, names', knows, steps', holds'⟩ := productions_holds holds₁ fits₁
      (by simpa [writtenRules, written] using rules') known (fun p member name element other =>
        mentioned name (inside p member name element) (same ▸ other)) declared
    refine conclude (extends_.trans extends') names' (fun name member => ?_) steps' holds'
    simp only [mentionedNames, declaredNames, usedNames, List.flatMap_singleton, List.nil_append,
      List.mem_cons, List.mem_flatMap, List.mem_filterMap] at member
    rcases member with rfl | ⟨p, member, e, element, named⟩
    · exact .inr (OrderedMap.mem_keys_of_get? (extends'.nonterminals _ _ known))
    · cases e with
      | name name' =>
        cases named
        exact knows p member name element
      | error => cases named
  | code place text =>
    have unmentioned : ∀ name ∈ mentionedNames [.code place text], s'.Knows name := by
      simp [mentionedNames, declaredNames, usedNames]
    cases place <;> cases declared
    · have holds' := holds.setHeader (modest.few [.header text] (by simp))
      exact conclude (.rebuild _ _) h.names unmentioned _ (by simpa [Written.append] using holds')
    · have holds' := holds.setFooter (modest.few [.footer text] (by simp))
      exact conclude (.rebuild _ _) h.names unmentioned _ (by simpa [Written.append] using holds')

/-! ## Files -/

theorem Reads.statements {done rest : List Statement} (h : s.Reads P all done)
    (few : all.dedup.length ≤ 65000) (terminals : (writtenTerminals (done ++ rest)).length ≤ 65000)
    (rules : (writtenRules (done ++ rest)).length ≤ 65000)
    (mentioned : ∀ st ∈ rest, ∀ name ∈ mentionedNames [st], name ∉ terminalNames done → name ∈ all)
    (later : ∀ st ∈ rest, st.group ≠ 0) (declared : rest.foldlM Scope.statement s = .ok s') :
    s'.Reads P all (done ++ rest) := by
  induction rest generalizing s done with
  | nil =>
    cases declared
    simpa using h
  | cons st rest ih =>
    rw [List.foldlM_cons] at declared
    obtain ⟨s₁, first, others⟩ := bind_eq_ok declared
    rw [List.append_cons] at terminals rules ⊢
    obtain ⟨steps, holds⟩ := h.holds
    have step : s₁.Reads P all (done ++ [st]) := by
      refine h.statement few ?_ ?_ (fun name member other => ?_)
        (later st (List.mem_cons_self ..)) first
      · rw [writtenTerminals, List.flatMap_append, List.length_append] at terminals
        exact Nat.le_of_add_right_le terminals
      · rw [writtenRules, List.flatMap_append, List.length_append] at rules
        exact Nat.le_of_add_right_le rules
      · rw [holds.terminal_keys] at other
        exact mentioned st (List.mem_cons_self ..) name member other
    refine ih step terminals rules (fun st' member name inside other => ?_)
      (fun st' member => later st' (List.mem_cons_of_mem _ member)) others
    refine mentioned st' (List.mem_cons_of_mem _ member) name inside fun earlier => other ?_
    rw [terminalNames, writtenTerminals, List.flatMap_append, List.map_append]
    exact List.mem_append_left _ earlier

structure Leveled (s : Scope) (done : List Statement) : Prop where
  builder : s.builder = .initial
  terminals : s.terminals = ∅
  nonterminals : s.nonterminals = ∅
  priority : s.nextPriority = .ofNat (writtenPrecedences done).length
  precedences : ∀ name, (s.precedences.get? name).map Precedence.level = precedenceNamed done name

theorem initial_leveled : initial.Leveled [] := ⟨rfl, rfl, rfl, rfl, fun _ => rfl⟩

theorem Leveled.statement {done : List Statement} {st : Statement} (h : s.Leveled done)
    (few : (writtenPrecedences (done ++ [st])).length ≤ 65000) (level : st.group = 0)
    (declared : s.statement st = .ok s') : s'.Leveled (done ++ [st]) := by
  cases st with
  | prec settings name =>
    obtain ⟨assoc, found, declared⟩ := bind_eq_ok declared
    cases declared
    have written : writtenPrecedences (done ++ [.prec settings name]) =
        writtenPrecedences done ++ [(settings, name)] := by
      simp [writtenPrecedences]
    rw [written, List.length_append, List.length_singleton] at few
    refine { h with priority := ?_, precedences := fun name' => ?_ }
    · rw [written, h.priority]
      simp
    · rw [OrderedMap.get?_insert, precedenceNamed, precedenceLevels, written, List.mapIdx_concat,
        List.reverse_append, List.reverse_singleton, List.singleton_append, List.lookup_cons]
      by_cases same : name' = name
      · have priority : s.nextPriority.toNat = (writtenPrecedences done).length := by
          rw [h.priority, UInt16.toNat_ofNat_of_lt' (by rw [UInt16.size]; omega)]
        simp [same, Precedence.level, priority, associativity_eq found]
      · have other : (name' == name) = false := beq_eq_false_iff_ne.2 same
        rw [if_neg same, h.precedences, other, precedenceNamed, precedenceLevels]
  | code place => cases place <;> cases level
  | _ => cases level

theorem Leveled.statements {done rest : List Statement} (h : s.Leveled done)
    (few : (writtenPrecedences (done ++ rest)).length ≤ 65000)
    (levels : ∀ st ∈ rest, st.group = 0) (declared : rest.foldlM Scope.statement s = .ok s') :
    s'.Leveled (done ++ rest) := by
  induction rest generalizing s done with
  | nil =>
    cases declared
    simpa using h
  | cons st rest ih =>
    rw [List.foldlM_cons] at declared
    obtain ⟨s₁, first, others⟩ := bind_eq_ok declared
    rw [List.append_cons] at few ⊢
    have few₁ := few
    rw [writtenPrecedences, List.flatMap_append, List.length_append] at few₁
    exact ih
      (h.statement (Nat.le_of_add_right_le few₁) (levels st (List.mem_cons_self ..)) first) few
      (fun st' member => levels st' (List.mem_cons_of_mem _ member)) others

/-- Precedence levels declare nothing else. -/
theorem flatMap_levels {α : Type} {f : Statement → List α} {levels : List Statement}
    (only : ∀ st, st.group = 0 → f st = []) (h : ∀ st ∈ levels, st.group = 0) :
    levels.flatMap f = [] :=
  List.flatMap_eq_nil_iff.2 fun st member => only st (h st member)

theorem written_levels {levels : List Statement} (h : ∀ st ∈ levels, st.group = 0) :
    written levels = ⟨[], [], [], [], [], []⟩ ∧ mentionedNames levels = [] := by
  have nothing {α : Type} {f : Statement → List α} (only : ∀ st, st.group = 0 → f st = []) :=
    flatMap_levels only h
  constructor
  · simp only [written, writtenTerminals, writtenPatterns, writtenRules, startNames, writtenCode]
    congr <;> refine nothing fun st level => ?_ <;> cases st <;> first | rfl | cases level
  · rw [mentionedNames, List.append_eq_nil_iff]
    constructor <;> refine nothing fun st level => ?_ <;> cases st <;> first | rfl | cases level

/-- The scope before anything but precedence levels has been declared. -/
theorem Leveled.reads {done : List Statement} (h : s.Leveled done)
    (levels : ∀ st ∈ done, st.group = 0) : s.Reads s.precedences.get? all done := by
  obtain ⟨none, unmentioned⟩ := written_levels levels
  refine ⟨⟨[], ?_⟩, by simp [h.nonterminals, OrderedMap.keys], by simp [unmentioned]⟩
  rw [none]
  constructor
  case builder => exact h.builder ▸ Builder.initial_holds
  case precedences => exact fun _ => rfl
  case terminals => rfl
  case terminal_actions => rw [h.builder]; rfl
  case patterns => exact .nil
  case rules => exact .nil
  case rule_actions => rw [h.builder]; rfl
  case start => rw [h.builder]; rfl
  case header => rw [h.builder]; rfl
  case footer => rw [h.builder]; rfl
  case terminal_keys => rw [h.terminals]; rfl
  case nonterminal_keys => rw [h.nonterminals]; rfl
  case terminal_iff =>
    intro name t
    rw [h.terminals, h.builder, OrderedMap.bind_get?_eq_none (by decide)]
    simp
  case nonterminal_iff =>
    intro name n
    rw [h.nonterminals, h.builder, OrderedMap.bind_get?_eq_none (by decide)]
    simp

end Scope
end Lalr
