import Lalr.Proofs.Source.Tree

/-! Reading as a run over tokens. The text of a tree is read to its end, and yields what the tree
says. -/
namespace Lalr.Source

variable {r : Reader} {u v more : List Token}

namespace Reader

/-- The statements that have ended and the reader behind all tokens, if each of them fits. -/
def run : Reader → List Token → Option (List Statement × Reader)
  | r, [] => some ([], r)
  | r, t :: rest =>
    match r.next? t with
    | none => none
    | some (.reading r') => run r' rest
    | some (.ended statement) => (run declaration rest).map fun (ss, r) => (statement :: ss, r)

def ended (statement : Statement) (rest : List Token) : Option (List Statement × Reader) :=
  (declaration.run rest).map fun (ss, r) => (statement :: ss, r)

theorem run_append : r.run (u ++ v) =
    (r.run u).bind fun p => (p.2.run v).map fun q => (p.1 ++ q.1, q.2) := by
  induction u generalizing r with
  | nil => simp [run]
  | cons t rest ih =>
    rw [List.cons_append, run, run]
    split
    · rfl
    · exact ih
    · rw [ih]
      cases declaration.run rest <;> simp [Function.comp_def]

/-! ## The text of a tree is read -/

section Settings

variable {wrap : SettingsReader → Reader} {behind : List Setting → Reader}
  (inside : ∀ r t, (wrap r).next? t = (r.next? t).map fun
    | .reading r' => .reading (wrap r')
    | .finished settings => .reading (behind settings))
include inside

theorem run_settingsList (done : List Setting) (first : Setting) (rest : List Setting)
    (comma : Bool) : (wrap (.key done)).run ((SettingsTree.list first rest comma).tokens ++ more) =
      (behind (done ++ first :: rest)).run more := by
  induction rest generalizing done first with
  | nil =>
    cases comma <;>
      simp [SettingsTree.tokens, separated, Setting.tokens, run, inside, SettingsReader.next?]
  | cons second rest ih =>
    rw [SettingsTree.tokens_cons]
    simpa [Setting.tokens, run, inside, SettingsReader.next?] using ih (done ++ [first]) second

variable (wrap behind) in
theorem run_settings (tree : SettingsTree) :
    (wrap (.key [])).run (tree.tokens ++ more) = (behind tree.settings).run more := by
  cases tree with
  | empty => simp [SettingsTree.tokens, SettingsTree.settings, run, inside, SettingsReader.next?]
  | list first rest comma => exact run_settingsList inside [] first rest comma

end Settings

theorem run_separated (text : α → List Token) (value : α → β) (separator : Token)
    (item : List β → Reader) (statement : List β → Statement)
    (between : ∀ done a more,
      (item done).run (text a ++ separator :: more) = (item (done ++ [value a])).run more)
    (last : ∀ done a more,
      (item done).run (text a ++ .semicolon :: more) = ended (statement (done ++ [value a])) more)
    (done : List β) (first : α) (rest : List α) (more : List Token) :
    (item done).run (separated separator text first rest ++ .semicolon :: more) =
      ended (statement (done ++ (first :: rest).map value)) more := by
  induction rest generalizing done first with
  | nil => simpa [separated] using last done first more
  | cons second rest ih =>
    rw [separated_cons, List.append_assoc, List.cons_append, between, ih, List.append_assoc]
    rfl

theorem run_definitions (settings : List Setting) (first : TerminalDefinition)
    (rest : List TerminalDefinition) (more : List Token) : (definition settings []).run
      (separated .comma TerminalDefinition.tokens first rest ++ .semicolon :: more) =
      ended (.terminal settings (first :: rest)) more := by
  have list := run_separated TerminalDefinition.tokens id .comma (definition settings)
    (.terminal settings)
    (fun done ⟨name, source, action⟩ more => by
      cases source <;> cases action <;>
        simp [TerminalDefinition.tokens, patternTokens, codeTokens, run, next?, definitionsNext?])
    (fun done ⟨name, source, action⟩ more => by
      cases source <;> cases action <;>
        simp [TerminalDefinition.tokens, patternTokens, codeTokens, run, next?, definitionsNext?,
          ended])
    [] first rest more
  simpa using list

theorem run_elements (left : String) (done : List Production) (settings : List Setting)
    (read es : List Element) :
    (elements left done settings read).run (es.map Element.token ++ more) =
      (elements left done settings (read ++ es)).run more := by
  induction es generalizing read with
  | nil => simp
  | cons e es ih =>
    rw [List.append_cons]
    cases e <;> exact ih _

/-- An alternative without its settings. -/
theorem run_body (left : String) (done : List Production) (settings : List Setting)
    (body : BodyTree) (action : Option String) :
    (productionBody left done settings).run (body.tokens ++ (codeTokens action ++ .bar :: more)) =
      (production left (done ++ [⟨settings, body.all, action⟩])).run more ∧
    (productionBody left done settings).run
        (body.tokens ++ (codeTokens action ++ .semicolon :: more)) =
      ended (.rule left (done ++ [⟨settings, body.all, action⟩])) more := by
  have behind (read : List Element) :
      (elements left done settings read).run (codeTokens action ++ .bar :: more) =
        (production left (done ++ [⟨settings, read, action⟩])).run more ∧
      (elements left done settings read).run (codeTokens action ++ .semicolon :: more) =
        ended (.rule left (done ++ [⟨settings, read, action⟩])) more := by
    cases action <;> exact ⟨rfl, rfl⟩
  cases body with
  | empty => cases action <;> exact ⟨rfl, rfl⟩
  | elements first rest =>
    have step (more : List Token) : (productionBody left done settings).run
        ((BodyTree.elements first rest).tokens ++ more) =
        (elements left done settings (first :: rest)).run more := by
      cases first <;> exact run_elements left done settings [_] rest
    rw [step, step]
    exact behind _

theorem run_productions (left : String) (first : ProductionTree) (rest : List ProductionTree)
    (more : List Token) : (production left []).run
      (separated .bar ProductionTree.tokens first rest ++ .semicolon :: more) =
      ended (.rule left ((first :: rest).map ProductionTree.production)) more := by
  have body (done : List Production) (p : ProductionTree) (more : List Token) :
      (production left done).run (p.tokens ++ more) = (productionBody left done
        (givenSettings p.settings)).run (p.body.tokens ++ (codeTokens p.action ++ more)) := by
    obtain ⟨settings, body, action⟩ := p
    rw [ProductionTree.tokens, List.append_assoc, List.append_assoc]
    cases settings with
    | none => rcases body with ⟨_ | _, _⟩ | _ <;> rfl
    | some tree =>
      exact run_settings (productionSettings left done) (productionBody left done)
        (fun _ _ => rfl) tree
  have list := run_separated ProductionTree.tokens ProductionTree.production .bar (production left)
    (.rule left)
    (fun done p more => (body done p _).trans (run_body ..).1)
    (fun done p more => (body done p _).trans (run_body ..).2)
    [] first rest more
  simpa using list

/-- A statement is read up to its semicolon. -/
theorem run_statement (tree : StatementTree) :
    declaration.run (tree.tokens ++ .semicolon :: more) = ended tree.statement more := by
  cases tree with
  | prec settings name =>
    cases settings with
    | none => rfl
    | some tree =>
      rw [StatementTree.tokens, List.append_assoc, List.cons_append, settingsTokens]
      exact run_settings precSettings precName (fun _ _ => rfl) tree
  | terminal settings first rest =>
    rw [StatementTree.tokens, List.append_assoc, List.cons_append]
    have list := run_definitions (givenSettings settings) first rest more
    cases settings with
    | none => exact list
    | some tree =>
      refine .trans ?_ list
      exact run_settings terminalSettings (definition · []) (fun _ _ => rfl) tree
  | whitespace first rest =>
    have list := run_separated ([.pattern ·]) id .comma pattern .whitespace
      (fun _ _ _ => rfl) (fun _ _ _ => rfl) [] first rest more
    rw [List.map_id] at list
    exact list
  | nonterminal first rest =>
    have list := run_separated ([.identifier ·]) id .comma nonterminal .nonterminal
      (fun _ _ _ => rfl) (fun _ _ _ => rfl) [] first rest more
    rw [List.map_id] at list
    exact list
  | start name => rfl
  | rule left bar first rest =>
    have list := run_productions left first rest more
    cases bar with
    | true => exact list
    | false =>
      refine .trans ?_ list
      obtain ⟨settings, body, action⟩ := first
      rcases settings with _ | tree
      · rcases body with ⟨_ | _, _⟩ | _ <;> rfl
      · rfl
  | code place text => cases place <;> rfl

theorem run_trees (trees : List StatementTree) :
    declaration.run (treeTokens trees) = some (trees.map StatementTree.statement, declaration) := by
  induction trees with
  | nil => rfl
  | cons tree rest ih =>
    rw [treeTokens, List.flatMap_cons, List.append_assoc]
    exact (run_statement tree).trans (by rw [ended]; exact congrArg _ ih)

end Reader

end Lalr.Source
