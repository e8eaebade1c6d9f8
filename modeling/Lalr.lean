import Lalr.Main
import Lalr.Proofs.Grammar.Derivation
import Lalr.Proofs.Grammar.Tree
import Lalr.Proofs.Grammar.WellFormed
import Lalr.Proofs.Grammar.Defined
import Lalr.Proofs.First.Nullable
import Lalr.Proofs.First.Exact
import Lalr.Proofs.Automaton.Canonical
import Lalr.Proofs.Automaton.Continuation
import Lalr.Proofs.Automaton.Closure
import Lalr.Proofs.Automaton.Successors
import Lalr.Proofs.Automaton.Construction
import Lalr.Proofs.Automaton.Exact
import Lalr.Proofs.Table.Cells
import Lalr.Proofs.Driver.Machine
import Lalr.Proofs.Driver.Soundness
import Lalr.Proofs.Driver.Completeness
import Lalr.Proofs.Driver.Moves
import Lalr.Proofs.Lexer.Language
import Lalr.Proofs.Lexer.Path
import Lalr.Proofs.Lexer.Thompson
import Lalr.Proofs.Lexer.Tokens
import Lalr.Proofs.Lexer.Reach
import Lalr.Proofs.Lexer.Classes
import Lalr.Proofs.Lexer.LongestMatch
import Lalr.Proofs.Lexer.Refinement
import Lalr.Proofs.Lexer.Subset
import Lalr.Proofs.Lexer.Minimal
import Lalr.Proofs.Lexer.Recognition
import Lalr.Proofs.Driver.Defaults
import Lalr.Proofs.Driver.Prefixes
import Lalr.Proofs.Table.Resolution
import Lalr.Proofs.Automaton.Kernels
import Lalr.Proofs.Grammar.Numbered
import Lalr.Proofs.Grammar.Declarations
import Lalr.Proofs.Source.Tree
import Lalr.Proofs.Source.Reading
import Lalr.Proofs.Source.Viable
import Lalr.Proofs.Grammar.Written
import Lalr.Proofs.Grammar.Scopes
import Lalr.Proofs.Grammar.Lowering
import Lalr.Proofs.Grammar.Lowered
import Lalr.Proofs.Lookup.Loops
import Lalr.Proofs.Lookup.Names
import Lalr.Proofs.Lookup.First
import Lalr.Proofs.Lookup.Automaton
import Lalr.Proofs.Lookup.Table
import Lalr.Proofs.Lookup.Patterns
import Lalr.Proofs.Lookup.Subset
import Lalr.Proofs.Lookup.Minimal
import Lalr.Proofs.Lookup.Stages
import Lalr.Proofs.Integrity.Reachability
import Lalr.Proofs.Automaton.Occurrence
import Lalr.Proofs.Integrity.EmptyStates
import Lalr.Proofs.Run.Gating
import Lalr.Proofs.Grammar.Contiguous
import Lalr.Proofs.Table.Indexed
import Lalr.Proofs.Lexer.Indexed
import Lalr.Proofs.Emit.Reader
import Lalr.Proofs.Emit.Arrays
import Lalr.Proofs.Emit.Template
import Lalr.Proofs.Emit.Search
import Lalr.Proofs.Emit.Indexed
import Lalr.Proofs.Lexer.Coarsest
import Lalr.Proofs.Lexer.Quotient
import Lalr.Proofs.First.Returned
import Lalr.Proofs.Grammar.Identifiers
import Lalr.Proofs.Lexer.Boundaries
import Lalr.Proofs.Lexer.Simulation
import Lalr.Proofs.Lexer.Fragments
import Lalr.Proofs.Lexer.Spelling
import Lalr.Proofs.Lexer.Lexemes
import Lalr.Proofs.Lexer.Parsing
import Lalr.Proofs.Lexer.Live
import Lalr.Proofs.Lexer.Reduced
import Lalr.Proofs.Automaton.LeastClosure
import Lalr.Proofs.Weight
import Lalr.Proofs.Automaton.Visits
import Lalr.Proofs.Automaton.Markers
import Lalr.Proofs.Emit.Scan
import Lalr.Proofs.Integrity.Findings
import Lalr.Proofs.CommandLine.Backup
import Lalr.Proofs.Source.Separated
import Lalr.Proofs.Source.Lossless
import Lalr.Proofs.WorkList
import Lalr.Proofs.First.Counters
import Lalr.Proofs.Lexer.Rounds
import Lalr.Proofs.CommandLine.Input
import Lalr.Proofs.Lexer.Epsilon
import Lalr.Proofs.Lexer.Numbering
import Lalr.Proofs.Grammar.Building
import Lalr.Proofs.Automaton.Merged
