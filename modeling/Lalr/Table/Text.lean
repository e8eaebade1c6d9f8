import Lalr.Table.Basic

/-! Parse tables as readable text. -/
namespace Lalr

def Action.text (g : Grammar) : Action → String
  | .shift i => "shift(" ++ stateName i ++ ")"
  | .reduce r => "reduce(" ++ g.ruleIdText r ++ ")"
  | .accept => "accept"
  | .error => "error"

def Conflict.kindText (c : Conflict) : String :=
  match c.shift, c.reduces.length with
  | some _, 1 => "shift/reduce"
  | some _, _ => "shift/reduce/reduce"
  | none, _ => "reduce/reduce"

def Conflict.text (g : Grammar) (c : Conflict) : String :=
  c.kindText ++ " conflict in state " ++ stateName c.state ++ " on `" ++
    g.terminalName c.lookahead ++ "':" ++
    (match c.shift with
      | some i => " shift(" ++ stateName i ++ "),"
      | none => "") ++
    ",".intercalate (c.reduces.map fun r => " reduce(" ++ g.ruleIdText r ++ ")") ++
    "; resolved as " ++ c.resolved.text g

def Row.text (g : Grammar) (row : Row) : String :=
  "## actions\n" ++
    String.join (row.actions.toList.map fun (t, a) =>
      "- " ++ g.terminalName t ++ " => " ++ a.text g ++ "\n") ++
    (match row.defaultReduce with
      | some r => "- (default) => reduce(" ++ g.ruleIdText r ++ ")\n"
      | none => "") ++
    "## gotos\n" ++
    String.join (row.gotos.toList.map fun (n, i) =>
      "- " ++ g.nonterminalName n ++ " => goto(" ++ stateName i ++ ")\n")

def ParseTable.text (g : Grammar) (t : ParseTable) : String :=
  "\n".intercalate (t.rows.toList.zipIdx.map fun (row, i) =>
    "#### State " ++ stateName i ++ "\n" ++ row.text g) ++
    if t.conflicts.isEmpty then ""
    else "\n#### Conflicts\n" ++
      String.join (t.conflicts.map fun c => "- " ++ c.text g ++ "\n")

end Lalr
