import Lalr.Proofs.Emit.Reader

/-! The arrays of an emitted parser, read back from its text. They are those of the parts that it
was made from, row by row. -/
namespace Lalr.Emit

structure TableArrays where
  actions : List (List (TerminalId × Action))
  gotos : List (List (NonterminalId × Nat))
  defaultReduce : List (Option RuleId)
  /-- Left-hand sides and lengths of right-hand sides. -/
  rules : List (NonterminalId × Nat)
  deriving DecidableEq

structure LexerArrays where
  byteClasses : List Nat
  transitions : List (List (Nat × Nat))
  accept : List (Option TerminalId)
  deriving DecidableEq

structure LabelArrays where
  terminals : List String
  nonterminals : List String
  deriving DecidableEq

namespace Reader

def terminal : Reader TerminalId := TerminalId.mk <$> word

def nonterminal : Reader NonterminalId := NonterminalId.mk <$> word

def rule : Reader RuleId := RuleId.mk <$> word

def state : Reader Nat := UInt16.toNat <$> word

def action : Reader Action := do
  expect "Action::"
  if ← accepts "Shift(" then
    let i ← state
    expect ")"
    return .shift i
  else if ← accepts "Reduce(" then
    let r ← rule
    expect ")"
    return .reduce r
  else if ← accepts "Accept" then return .accept
  else
    expect "Error"
    return .error

/-- What stands in front of the row of a state. -/
def stateMark (i : Nat) : String := "    /* " ++ stateName i ++ " */ &["

def tables : Reader TableArrays := do
  expect "static ACTIONS: &[&[(u16, Action)]] = &[\n"
  let actions ← rowsOf stateMark (pairOf terminal action)
  expect "static GOTOS: &[&[(u16, u16)]] = &[\n"
  let gotos ← rowsOf stateMark (pairOf nonterminal state)
  expect "static DEFAULT_REDUCE: &[Option<u16>] = &["
  let defaultReduce ← listOf (optionOf rule)
  expect ";\n"
  expect "/// `(left-hand side, length of right-hand side)` of each rule.\n"
  expect "static RULES: &[(u16, usize)] = &["
  let rules ← listOf (pairOf nonterminal number)
  expect ";\n"
  return { actions, gotos, defaultReduce, rules }

def lexer : Reader LexerArrays := do
  expect "static BYTE_CLASSES: [u16; 256] = ["
  let byteClasses ← listOf number
  expect ";\n"
  expect "static DFA_TRANSITIONS: &[&[(u16, u32)]] = &[\n"
  let transitions ← rowsOf (fun _ => "    &[") (pairOf number number)
  expect "static DFA_ACCEPT: &[Option<u16>] = &["
  let accept ← listOf (optionOf terminal)
  expect ";\n"
  return { byteClasses, transitions, accept }

def labels : Reader LabelArrays := do
  expect "static TERMINAL_LABELS: &[&str] = &["
  let terminals ← listOf literal
  expect ";\n"
  expect "static NONTERMINAL_LABELS: &[&str] = &["
  let nonterminals ← listOf literal
  expect ";\n"
  return { terminals, nonterminals }

theorem Reads.terminal (t : TerminalId) : Reads terminal (toString t.raw.toNat).toList t :=
  (Reads.word t.raw).map TerminalId.mk

theorem Reads.nonterminal (n : NonterminalId) :
    Reads nonterminal (toString n.raw.toNat).toList n := (Reads.word n.raw).map NonterminalId.mk

theorem Reads.rule (r : RuleId) : Reads rule (toString r.raw.toNat).toList r :=
  (Reads.word r.raw).map RuleId.mk

theorem Reads.state {i : Nat} (small : i < UInt16.size) : Reads state (toString i).toList i := by
  have read := (Reads.word (.ofNat i)).map UInt16.toNat
  rwa [UInt16.toNat_ofNat_of_lt' small] at read

theorem Reads.action {a : Action} (small : ∀ i, a = .shift i → i < UInt16.size) :
    Reads action (actionText a).toList a := by
  cases a with
  | shift i =>
    have text : (actionText (.shift i)).toList =
        "Action::".toList ++ ("Shift(".toList ++ ((toString i).toList ++ (")".toList ++ []))) := by
      unfold actionText
      rw [show "Action::Shift(" = "Action::" ++ "Shift(" from rfl]
      simp only [String.toList_append, List.append_assoc, List.append_nil]
    rw [text]
    exact .expect_bind (.accepts_bind (.then_expect rfl rfl (.state (small i rfl)) (.pure _)))
  | reduce r =>
    have text : (actionText (.reduce r)).toList = "Action::".toList ++
        ("Reduce(".toList ++ ((toString r.raw.toNat).toList ++ (")".toList ++ []))) := by
      unfold actionText
      rw [show "Action::Reduce(" = "Action::" ++ "Reduce(" from rfl]
      simp only [String.toList_append, List.append_assoc, List.append_nil]
    rw [text]
    exact .expect_bind (.skips_bind (c := 'S') (d := 'R') rfl (by decide)
      (.accepts_bind (w := "Reduce(") (.then_expect rfl rfl (.rule r) (.pure _))))
  | accept =>
    exact .expect_bind (t := "Accept".toList) (.skips_bind (c := 'S') rfl (by decide)
      (.skips_bind (c := 'R') rfl (by decide) (.accepts_bind (w := "Accept") (t := []) (.pure _))))
  | error =>
    exact .expect_bind (t := "Error".toList) (.skips_bind (c := 'S') rfl (by decide)
      (.skips_bind (c := 'R') rfl (by decide) (.skips_bind (c := 'A') rfl (by decide)
        (.expect_bind (w := "Error") (t := []) (.pure _)))))

end Reader

namespace Parts

open Reader

variable {p : Parts}

def tableArrays (p : Parts) : TableArrays where
  actions := p.table.rows.toList.map (·.actions.sortKeys.toList)
  gotos := p.table.rows.toList.map (·.gotos.sortKeys.toList)
  defaultReduce := p.table.rows.toList.map (·.defaultReduce)
  rules := p.grammar.rules.values.map fun rule => (rule.left, rule.right.size)

def lexerArrays (p : Parts) : LexerArrays where
  byteClasses := Lexer.allBytes.map p.dfa.classes.get
  transitions := p.dfa.states.toList.map (·.transitions.sortKeys.toList)
  accept := p.dfa.states.toList.map (·.accept)

def labelArrays (p : Parts) : LabelArrays where
  terminals := p.grammar.terminals.values.map (·.name)
  nonterminals := p.grammar.nonterminals.values.map (·.name)

/-- The states that a row mentions can be written with 16 bits. -/
def Narrow (table : ParseTable) : Prop := ∀ row ∈ table.rows.toList,
  (∀ e ∈ row.actions.sortKeys.toList, ∀ i, e.2 = .shift i → i < UInt16.size) ∧
    ∀ e ∈ row.gotos.sortKeys.toList, e.2 < UInt16.size

theorem toList_rowLines {entries : Row → List α} {text : α → String} (cells : Row → List String)
    (listed : ∀ row, cells row = (entries row).map text) (table : ParseTable) :
    (rowLines table cells).toList ++ "];\n".toList =
      lines stateMark 0 ((table.rows.toList.map entries).map (·.map text)) := by
  unfold rowLines lines stateMark
  simp only [listed, String.toList_join, List.map_map, List.zipIdx_map, List.flatMap_map,
    Function.comp_def, String.toList_append, List.append_assoc, Prod.map, id]

theorem stateMark_begins (i : Nat) : ∃ cs, (stateMark i).toList = ' ' :: cs := by
  refine ⟨"   /* ".toList ++ (stateName i).toList ++ " */ &[".toList, ?_⟩
  simp [stateMark]

theorem reads_actions (narrow : Narrow p.table) :
    Reads (rowsOf stateMark (pairOf terminal action))
      ((rowLines p.table actionCells).toList ++ "];\n".toList) p.tableArrays.actions := by
  rw [toList_rowLines actionCells fun row => rfl]
  refine .rowsOf stateMark_begins pairOf_refuses fun cells member e inCells => ?_
  obtain ⟨row, inRows, rfl⟩ := List.mem_map.1 member
  exact .pairOf (.terminal e.1) (.action ((narrow row inRows).1 e inCells))

theorem reads_gotos (narrow : Narrow p.table) :
    Reads (rowsOf stateMark (pairOf nonterminal state))
      ((rowLines p.table gotoCells).toList ++ "];\n".toList) p.tableArrays.gotos := by
  rw [toList_rowLines gotoCells fun row => rfl]
  refine .rowsOf stateMark_begins pairOf_refuses fun cells member e inCells => ?_
  obtain ⟨row, inRows, rfl⟩ := List.mem_map.1 member
  exact .pairOf (.nonterminal e.1) (.state ((narrow row inRows).2 e inCells))

theorem reads_optional {item : Reader α} {number : α → Nat}
    (h : ∀ a, Reads item (toString (number a)).toList a) (ids : List (Option α)) :
    Reads (listOf (optionOf item))
      ((commaSeparated (ids.map fun o => optionalNumber (o.map number))).toList ++ "]".toList) ids :=
  .listOf ids optionOf_refuses fun _ _ => .optionOf fun a _ => h a

/-- The bracket belongs to the list in front of it. -/
theorem closed : "];\n" = "]" ++ ";\n" := rfl

theorem toList_tables : p.tables.toList =
    "static ACTIONS: &[&[(u16, Action)]] = &[\n".toList ++
    (((rowLines p.table actionCells).toList ++ "];\n".toList) ++
    ("static GOTOS: &[&[(u16, u16)]] = &[\n".toList ++
    (((rowLines p.table gotoCells).toList ++ "];\n".toList) ++
    ("static DEFAULT_REDUCE: &[Option<u16>] = &[".toList ++
    (((commaSeparated (p.tableArrays.defaultReduce.map fun o =>
      optionalNumber (o.map (·.raw.toNat)))).toList ++ "]".toList) ++
    (";\n".toList ++
    ("/// `(left-hand side, length of right-hand side)` of each rule.\n".toList ++
    ("static RULES: &[(u16, usize)] = &[".toList ++
    (((commaSeparated (p.tableArrays.rules.map fun e =>
      pair (toString e.1.raw.toNat) (toString e.2))).toList ++ "]".toList) ++
    (";\n".toList ++ [])))))))))) := by
  unfold Parts.tables
  simp only [tableArrays, closed, String.toList_append, List.map_map, List.append_assoc,
    List.append_nil, Function.comp_def]

theorem value?_tables (narrow : Narrow p.table) :
    Reader.tables.value? p.tables = some p.tableArrays := by
  have rules := Reads.listOf p.tableArrays.rules pairOf_refuses
    fun e _ => .pairOf (.nonterminal e.1) (.number e.2)
  apply Reads.value?_eq
  rw [toList_tables]
  refine .expect_bind (.then_expect rfl rfl (reads_actions narrow) ?_)
  refine .then_expect rfl rfl (reads_gotos narrow) ?_
  refine .then_expect rfl rfl (reads_optional Reads.rule _) ?_
  exact .expect_bind (.expect_bind (.then_expect rfl rfl rules (.pure _)))

def transitionLines (states : List Lexer.DfaState) : String :=
  String.join (states.map fun s => "    &[" ++ commaSeparated (transitionCells s) ++ "],\n")

theorem toList_transitionLines (states : List Lexer.DfaState) (i : Nat) :
    (transitionLines states).toList ++ "];\n".toList = lines (fun _ => "    &[") i
      ((states.map (·.transitions.sortKeys.toList)).map (·.map fun e =>
        pair (toString e.1) (toString e.2))) := by
  have numbered : (states.zipIdx i).map Prod.fst = states := List.zipIdx_map_fst i states
  unfold transitionLines lines transitionCells
  conv_lhs => rw [← numbered]
  simp only [String.toList_join, List.map_map, List.zipIdx_map, List.flatMap_map,
    Function.comp_def, String.toList_append, List.append_assoc, Prod.map]

theorem reads_transitions :
    Reads (rowsOf (fun _ => "    &[") (pairOf number number))
      ((transitionLines p.dfa.states.toList).toList ++ "];\n".toList)
      p.lexerArrays.transitions := by
  rw [toList_transitionLines _ 0]
  exact .rowsOf (fun _ => ⟨"   &[".toList, rfl⟩) pairOf_refuses fun _ _ e _ =>
    .pairOf (.number e.1) (.number e.2)

theorem toList_dfaTables : p.dfaTables.toList =
    "static BYTE_CLASSES: [u16; 256] = [".toList ++
    (((commaSeparated (p.lexerArrays.byteClasses.map toString)).toList ++ "]".toList) ++
    (";\n".toList ++
    ("static DFA_TRANSITIONS: &[&[(u16, u32)]] = &[\n".toList ++
    (((transitionLines p.dfa.states.toList).toList ++ "];\n".toList) ++
    ("static DFA_ACCEPT: &[Option<u16>] = &[".toList ++
    (((commaSeparated (p.lexerArrays.accept.map fun o =>
      optionalNumber (o.map (·.raw.toNat)))).toList ++ "]".toList) ++
    (";\n".toList ++ []))))))) := by
  unfold dfaTables
  simp only [lexerArrays, transitionLines, closed, String.toList_append, List.map_map,
    List.append_assoc, List.append_nil, Function.comp_def]

theorem value?_dfaTables : Reader.lexer.value? p.dfaTables = some p.lexerArrays := by
  have classes := Reads.listOf p.lexerArrays.byteClasses (numeral_refuses (by decide))
    fun n _ => .number n
  apply Reads.value?_eq
  rw [toList_dfaTables]
  refine .expect_bind (.then_expect rfl rfl classes (.expect_bind ?_))
  refine .then_expect rfl rfl reads_transitions ?_
  exact .then_expect rfl rfl (reads_optional Reads.terminal _) (.pure _)

theorem toList_labels : p.labels.toList =
    "static TERMINAL_LABELS: &[&str] = &[".toList ++
    (((commaSeparated (p.labelArrays.terminals.map Text.quoted)).toList ++ "]".toList) ++
    (";\n".toList ++
    ("static NONTERMINAL_LABELS: &[&str] = &[".toList ++
    (((commaSeparated (p.labelArrays.nonterminals.map Text.quoted)).toList ++ "]".toList) ++
    (";\n".toList ++ []))))) := by
  unfold Parts.labels
  simp only [labelArrays, closed, String.toList_append, List.map_map, List.append_assoc,
    List.append_nil, Function.comp_def]

/-- The labels are string literals of the names. -/
theorem value?_labels : Reader.labels.value? p.labels = some p.labelArrays := by
  have names (names : List String) :=
    Reads.listOf names literal_refuses fun s _ => .literal s
  apply Reads.value?_eq
  rw [toList_labels]
  refine .expect_bind (.then_expect rfl rfl (names _) (.expect_bind ?_))
  exact .then_expect rfl rfl (names _) (.pure _)

end Parts
end Lalr.Emit
