/-! The arguments of the program. -/
namespace Lalr.CommandLine

structure Arguments where
  input : String
  output : Option String
  template : Option String
  dumpAutomaton : Bool
  dumpNfa : Bool
  dumpDfa : Bool
  noMinimize : Bool
  verbose : Bool
  deriving DecidableEq, Repr

/-- What the arguments are answered with where nothing is to be generated. -/
inductive Notice where
  | help
  | version
  | misuse
  deriving DecidableEq, Repr

namespace Notice

def usage : String :=
  "usage: lalr [OPTIONS] <INPUT>\n\n" ++
    "  -o, --output <OUTPUT>\n      --template <TEMPLATE>\n      --dump-automaton\n" ++
    "      --dump-nfa\n      --dump-dfa\n      --no-minimize\n  -v, --verbose\n" ++
    "  -h, --help\n  -V, --version\n"

def text : Notice → String
  | help => usage
  | version => "lalrex-cli 0.0.0-dev\n"
  | misuse => usage

def exitCode : Notice → Nat
  | help => 0
  | version => 0
  | misuse => 2

end Notice

structure Given where
  input : Option String := none
  output : Option String := none
  template : Option String := none
  dumpAutomaton : Bool := false
  dumpNfa : Bool := false
  dumpDfa : Bool := false
  noMinimize : Bool := false
  verbose : Bool := false

namespace Given

/-- Nothing is given twice. -/
def raise (given : Bool) (g : Given) : Except Notice Given :=
  if given then .error .misuse else .ok g

/-- Paths are not empty. -/
def setInput (g : Given) (v : String) : Except Notice Given :=
  raise (g.input.isSome || v.isEmpty) { g with input := some v }

def setOutput (g : Given) (v : String) : Except Notice Given :=
  raise (g.output.isSome || v.isEmpty) { g with output := some v }

def setTemplate (g : Given) (v : String) : Except Notice Given :=
  raise (g.template.isSome || v.isEmpty) { g with template := some v }

def setVerbose (g : Given) : Except Notice Given := raise g.verbose { g with verbose := true }

def flag (g : Given) (name : List Char) : Except Notice Given :=
  match String.ofList name with
  | "dump-automaton" => raise g.dumpAutomaton { g with dumpAutomaton := true }
  | "dump-nfa" => raise g.dumpNfa { g with dumpNfa := true }
  | "dump-dfa" => raise g.dumpDfa { g with dumpDfa := true }
  | "no-minimize" => raise g.noMinimize { g with noMinimize := true }
  | "verbose" => g.setVerbose
  | "help" => .error .help
  | "version" => .error .version
  | _ => .error .misuse

def valued (name : List Char) : Option (Given → String → Except Notice Given) :=
  match String.ofList name with
  | "output" => some setOutput
  | "template" => some setTemplate
  | _ => none

/-- Short options in one argument. The output may be named behind its letter; if it is not,
the next argument names it. -/
def short (g : Given) : List Char → Except Notice (Given × Bool)
  | [] => .ok (g, false)
  | 'v' :: rest => g.setVerbose.bind fun g => g.short rest
  | 'h' :: _ => .error .help
  | 'V' :: _ => .error .version
  | ['o'] => .ok (g, true)
  | 'o' :: '=' :: value => (g.setOutput (.ofList value)).map (·, false)
  | 'o' :: value => (g.setOutput (.ofList value)).map (·, false)
  | _ => .error .misuse

def isValue (arg : String) : Bool :=
  match arg.toList with
  | '-' :: _ :: _ => false
  | _ => true

/-- The arguments are read one after another. The first one that asks for a notice, or makes no
sense, is answered whatever follows. -/
def read (g : Given) : List String → Except Notice Given
  | [] => .ok g
  | arg :: rest =>
    match arg.toList with
    | ['-', '-'] => rest.foldlM setInput g
    | '-' :: '-' :: long =>
      let name := long.takeWhile (· != '=')
      match valued name, long.drop name.length with
      | some set, _ :: value => (set g (.ofList value)).bind fun g => g.read rest
      | some set, [] =>
        match rest with
        | value :: rest =>
          if isValue value then (set g value).bind fun g => g.read rest else .error .misuse
        | [] => .error .misuse
      | none, [] => (g.flag name).bind fun g => g.read rest
      | none, _ => .error .misuse
    | '-' :: c :: letters =>
      match g.short (c :: letters) with
      | .ok (g, false) => g.read rest
      | .ok (g, true) =>
        match rest with
        | value :: rest =>
          if isValue value then (g.setOutput value).bind fun g => g.read rest else .error .misuse
        | [] => .error .misuse
      | .error notice => .error notice
    | _ => (g.setInput arg).bind fun g => g.read rest

end Given

/-- The arguments, if they make sense: one input, known options, none of them twice. -/
def Arguments.parse (args : List String) : Except Notice Arguments := do
  let g ← ({} : Given).read args
  let some input := g.input | throw .misuse
  return ⟨input, g.output, g.template, g.dumpAutomaton, g.dumpNfa, g.dumpDfa, g.noMinimize,
    g.verbose⟩

end Lalr.CommandLine
