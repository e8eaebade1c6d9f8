import Lalr.CommandLine.Arguments
import Lalr.CommandLine.Path
import Lalr.CommandLine.Program
import Lalr.Emit.Render
import Lalr.Grammar.OfStatements
import Lalr.Lexer.Text
import Lalr.Pipeline

/-! The program: read a grammar file, generate, dump what was asked for, and write the parser.
A parser that is already there is kept as a backup. -/
namespace Lalr.CommandLine

def automatonDump (g : Grammar) (o : Output) : String :=
  (match o.first with
    | some first => first.text g ++ "\n"
    | none => "") ++
  (match o.automaton with
    | some a => a.text g ++ "\n"
    | none => "") ++
  (match o.table with
    | some t => t.text g
    | none => "")

def dfaDump (g : Grammar) (o : Output) : String :=
  (match o.rawDfa with
    | some d => "### raw DFA\n" ++ d.text g ++ "\n"
    | none => "") ++
  (match o.dfa with
    | some d => "### minimized DFA\n" ++ d.text g
    | none => "")

/-- `2 error(s), 1 warning(s): no parser generated` -/
def refusal (report : Report) : String :=
  toString report.errorCount ++ " error(s), " ++ toString report.warningCount ++
    " warning(s): no parser generated"

def summary (report : Report) : String :=
  toString report.warningCount ++ " warning(s), " ++ toString report.errorCount ++ " error(s)\n"

def successLine (input : String) (s : TableStats) (lexerStates : Nat) : String :=
  "\"" ++ input ++ "\" produced " ++ toString s.states ++ " states (" ++ toString s.shifts ++
    " shifts, " ++ toString s.reduces ++ " reductions, " ++ toString s.gotos ++ " gotos, " ++
    toString s.conflicts ++ " conflicts), " ++ toString lexerStates ++ " lexer states\n"

def backup (path target : String) (next : Program) : Program :=
  .pathExists path fun
    | false => next
    | true => .copy path target fun
      | .ok () => next
      | .error e => .fail ⟨"failed to backup the output file to " ++ target, [e.text]⟩

/-- Write the dumps that were asked for. `input` is the absolute path of the grammar file. -/
def dumps (args : Arguments) (input : String) (g : Grammar) (o : Output) (next : Program) :
    Program :=
  .when args.dumpAutomaton
    (.writeOrFail (withExtension input "automaton") (automatonDump g o) "writing .automaton") <|
  .when args.dumpNfa
    (fun next => match o.nfa with
      | some nfa => .writeOrFail (withExtension input "nfa") (nfa.text g) "writing .nfa" next
      | none => next) <|
  .when args.dumpDfa
    (.writeOrFail (withExtension input "dfa") (dfaDump g o) "writing .dfa")
  next

def emit (args : Arguments) (input template : String) (parts : Emit.Parts) : Program :=
  let output := args.output.getD (withExtension input "rs")
  let code := parts.render template
  backup output (withExtension output "rs.bak") <|
    .writeOrFail output code ("failed to write generated parser to " ++ output) .done

def generateFrom (args : Arguments) (input template : String) (g : Grammar) : Program :=
  let o := Lalr.generate g (!args.noMinimize)
  .print (String.join (o.report.map fun d => d.text ++ "\n")) <|
  dumps args input g o <|
  .when args.verbose (.print (summary o.report)) <|
    if !o.isSuccess then .fail ⟨refusal o.report, []⟩
    else
      match o.table, o.dfa with
      | some table, some dfa =>
        .when args.verbose (.print (successLine args.input table.stats dfa.states.size)) <|
          emit args input template ⟨g, table, dfa⟩
      | _, _ => .fail ⟨"the pipeline finished without a parse table", []⟩

/-- The causes of a grammar that does not load. A syntax error is its own second cause. -/
def loadCauses : LoadError → List String
  | .syntaxFault e => [(LoadError.syntaxFault e).message, e.message]
  | .lowering e => [(LoadError.lowering e).message]

def load (input : String) (next : Grammar → Program) : Program :=
  let failed := fun causes => Program.fail ⟨"failed to load " ++ input, causes⟩
  .readText input fun
    | .error e => failed ["IO error: " ++ e.text]
    | .ok text =>
      match Grammar.ofText text with
      | .error e => failed (loadCauses e)
      | .ok g => next g

def loadTemplate (args : Arguments) (next : String → Program) : Program :=
  match args.template with
  | none => next Emit.defaultTemplate
  | some path => .readText path fun
    | .error e => .fail ⟨"failed to read the template " ++ path, [e.text]⟩
    | .ok text => next text

def program (args : Arguments) : Program :=
  .resolve args.input fun
    | .error e => .fail ⟨"failed to canonicalize the input file name", [e.text]⟩
    | .ok input =>
      loadTemplate args fun template =>
        load input fun g => generateFrom args input template g

end Lalr.CommandLine
