import Lalr.Proofs.CommandLine.Backup

/-! What becomes of the grammar file. The parser may replace it, for then it is kept as the backup,
which is another file whatever the parser is called. A dump and the backup of another parser replace
it for good. -/
namespace Lalr.CommandLine

open FileSystem

variable {fs fs' : FileSystem} {words : List String} {place output : Place} {path : String}
  {content : ByteArray}

/-- The backup of a parser does not go to the place of the parser. -/
theorem FileSystem.target_backup_ne (reached : fs.target path = .ok place) :
    fs.target (withExtension path "rs.bak") ≠ .ok place := by
  intro reached'
  obtain ⟨around, name, names, rfl⟩ := target_eq_ok_iff.1 reached
  obtain ⟨around', name', names', same⟩ := target_eq_ok_iff.1 reached'
  obtain ⟨before, split, -⟩ := names.walk
  obtain ⟨before', split', -⟩ := names'.walk
  obtain rfl : name = name' := by simpa using congrArg List.getLast? same
  obtain ⟨stem, rfl⟩ := exists_stem_of_withExtension (by decide) split' names'.idle names'.up
  -- The parser itself has the extension of a backup; the backup has one more part.
  have split : parts path = before ++ [stem ++ "." ++ "rs" ++ "." ++ "bak"] := by
    have rsBak : "rs.bak" = "rs" ++ "." ++ "bak" := by decide
    rw [split, rsBak]
    simp only [String.append_assoc]
  have dot : ".".length = 1 := by decide
  have rs : "rs".length = 2 := by decide
  have visible : stem ++ "." ++ "rs" ≠ "" := by
    intro none
    have := congrArg String.length none
    simp [String.length_append, dot] at this
  have current : stem ++ "." ++ "rs" ≠ "." := by
    intro same
    have := congrArg String.length same
    rw [String.length_append, String.length_append, dot, rs] at this
    omega
  have longer : parts (withExtension path "rs.bak") =
      before ++ [stem ++ "." ++ "rs" ++ "." ++ "rs.bak"] :=
    parts_withExtension split visible current (by decide) (by decide)
  have names := split'.symm.trans longer
  have lengths := congrArg String.length (List.singleton_inj.1 (List.append_inj' names rfl).2)
  simp only [String.length_append, dot, rs] at lengths
  omega

def IsInput (fs : FileSystem) (words : List String) (place : Place) : Prop :=
  ∃ args input, Invoked fs words args input ∧ fs.find input = .ok place

theorem isInput_iff {args : Arguments} {input : String} (invoked : Invoked fs words args input) :
    IsInput fs words place ↔ fs.find input = .ok place := by
  constructor
  · rintro ⟨args', input', invoked', found⟩
    obtain ⟨rfl, rfl⟩ := invoked.unique invoked'
    exact found
  · exact fun found => ⟨args, input, invoked, found⟩

/-- A dump goes to this place, or the backup does and there will be a parser to be replaced: it is
there already, or it is a dump. -/
def Overwritten (fs : FileSystem) (words : List String) (place : Place) : Prop :=
  IsDump fs words place ∨ IsBackup fs words place ∧
    ∃ output, IsOutput fs words output ∧
      (fs.nodes.get? output ≠ none ∨ IsDump fs words output)

/-- What was in the file is still there, or in the backup. -/
def Kept (fs : FileSystem) (words : List String) (place : Place) (content : ByteArray)
    (fs' : FileSystem) : Prop :=
  fs'.nodes.get? place = some (.file content) ∨
    ∃ kept, IsBackup fs words kept ∧ fs'.nodes.get? kept = some (.file content)

def KeepsInput (fs : FileSystem) (words : List String) : Prop :=
  ∀ place content, IsInput fs words place → fs.nodes.get? place = some (.file content) →
    Kept fs words place content (session fs words).fileSystem

section Leaves

variable {args : Arguments} {input : String} {fs₁ : FileSystem}
  (invoked : Invoked fs words args input) (safe : ¬ Overwritten fs words place)
  (changed : Frame (args.dumpPaths input) fs fs₁)
include invoked safe changed

/-- Behind the dumps, what the parser replaces is not copied over the file. -/
theorem ne_backup {kept : Place} {old : ByteArray} (leads : fs₁.Leads (args.outputPath input) output)
    (there : fs₁.nodes.get? output = some (.file old))
    (leads' : fs₁.Leads (args.backupPath input) kept) : place ≠ kept := by
  rintro rfl
  have isOutput := (isOutput_iff invoked).2 (changed.target.1 leads.target)
  have isBackup := (isBackup_iff invoked).2 (changed.target.1 leads'.target)
  refine (not_or.1 safe).2 ⟨isBackup, output, isOutput, ?_⟩
  by_cases dumped : IsDump fs words output
  · exact .inr dumped
  · refine .inl ?_
    rw [← undumped invoked changed dumped, there]
    exact nofun

variable (file : fs.nodes.get? place = some (.file content))
include file

/-- When the way is clear for the parser, the file is as it was, and the parser has another place or
its place has been copied. -/
theorem kept_of_clears
    (clears : Clears fs₁ (args.outputPath input) (args.backupPath input) output fs') :
    fs'.nodes.get? place = some (.file content) ∧ (place = output →
      ∃ kept ≠ output, IsBackup fs words kept ∧ fs'.nodes.get? kept = some (.file content)) := by
  have still : fs₁.nodes.get? place = some (.file content) :=
    (undumped invoked changed (not_or.1 safe).1).trans file
  cases clears with
  | new leads free =>
    refine ⟨still, ?_⟩
    rintro rfl
    cases still.symm.trans free
  | @kept kept old leads there leads' different =>
    have other := ne_backup invoked safe changed leads there leads'
    refine ⟨(get?_put_of_ne other).trans still, ?_⟩
    rintro rfl
    cases still.symm.trans there
    exact ⟨kept, different, (isBackup_iff invoked).2 (changed.target.1 leads'.target),
      get?_put_self⟩

/-- Behind the dumps, a file that nothing but the parser replaces is kept. -/
theorem kept_of_leaves {code : ByteArray} {exitCode : Nat}
    (leaves : Leaves fs₁ (args.outputPath input) (args.backupPath input) code exitCode fs') :
    Kept fs words place content fs' := by
  have still : fs₁.nodes.get? place = some (.file content) :=
    (undumped invoked changed (not_or.1 safe).1).trans file
  have installed {output : Place} {fs₂ : FileSystem} {written : ByteArray}
      (clears : Clears fs₁ (args.outputPath input) (args.backupPath input) output fs₂) :
      Kept fs words place content (fs₂.put output written) := by
    obtain ⟨there, copied⟩ := kept_of_clears invoked safe changed file clears
    by_cases same : place = output
    · obtain ⟨kept, different, isBackup, holds⟩ := copied same
      exact .inr ⟨kept, isBackup, (get?_put_of_ne different).trans holds⟩
    · exact .inl ((get?_put_of_ne same).trans there)
  cases leaves with
  | untouched => exact .inl still
  | copying leads there leads' _ _ =>
    have other := ne_backup invoked safe changed leads there leads'
    exact .inl ((get?_put_of_ne other).trans still)
  | refused clears _ => exact .inl (kept_of_clears invoked safe changed file clears).1
  | writing clears _ _ => exact installed clears
  | installed clears => exact installed clears

end Leaves

/-- This is so for all files. -/
theorem session_keeps (ordinary : fs.Ordinary)
    (file : fs.nodes.get? place = some (.file content)) (safe : ¬ Overwritten fs words place) :
    Kept fs words place content (session fs words).fileSystem := by
  rw [session]
  cases parsed : Arguments.parse words with
  | error notice => cases notice <;> exact .inl file
  | ok args =>
    dsimp only
    rcases program_cases ordinary fun _ _ _ => target_backup_ne with
      failed | ⟨input, fs₁, found, changed, failed | ⟨code, -, leaves⟩⟩
    · rw [failed.2]
      exact .inl file
    · rw [failed.2]
      exact .inl ((undumped ⟨parsed, found⟩ changed (not_or.1 safe).1).trans file)
    · exact kept_of_leaves ⟨parsed, found⟩ safe changed file leaves

/-- A run that fails or succeeds keeps the grammar, in its file or in the backup, unless a dump that
is asked for goes to the grammar file, or a parser that is replaced is backed up there. -/
theorem session_keeps_input (ordinary : fs.Ordinary)
    (safe : ∀ place, IsInput fs words place → ¬ Overwritten fs words place) :
    KeepsInput fs words :=
  fun place _ isInput file => session_keeps ordinary file (safe place isInput)

def oneSentence : ByteArray := "@terminal A = \"a\";\n@rule S := A;\n".toUTF8

def parserOverGrammar : FileSystem :=
  .ofFiles ["tmp", "work"] [("g.rs", oneSentence), ("t", "new".toUTF8)]

def parserWords : List String := ["g.rs", "--template", "t", "--dump-nfa"]

/-- The grammar is kept as the backup. -/
theorem session_keeps_input_parserOverGrammar :
    parserOverGrammar.Ordinary ∧ KeepsInput parserOverGrammar parserWords ∧
      (session parserOverGrammar parserWords).fileSystem.content? ["tmp", "work", "g.rs"] =
        some "new".toUTF8 ∧
      (session parserOverGrammar parserWords).fileSystem.content? ["tmp", "work", "g.rs.bak"] =
        some oneSentence := by
  have ordinary : parserOverGrammar.Ordinary := ofFiles_ordinary (by decide) (by decide)
  have invoked : Invoked parserOverGrammar parserWords
      ⟨"g.rs", none, some "t", false, true, false, false, false⟩ "/tmp/work/g.rs" :=
    ⟨by decide +kernel, by decide +kernel⟩
  have found : parserOverGrammar.find "/tmp/work/g.rs" = .ok ["tmp", "work", "g.rs"] := by
    decide +kernel
  have dump : parserOverGrammar.target "/tmp/work/g.nfa" = .ok ["tmp", "work", "g.nfa"] := by
    decide +kernel
  have backup : parserOverGrammar.target "/tmp/work/g.rs.bak" = .ok ["tmp", "work", "g.rs.bak"] := by
    decide +kernel
  refine ⟨ordinary, session_keeps_input ordinary fun place isInput => ?_, by decide +kernel⟩
  obtain rfl := Except.ok.inj (((isInput_iff invoked).1 isInput).symm.trans found)
  rintro (⟨args, input, invoked', path, member, reached⟩ | ⟨isBackup, -⟩)
  · obtain ⟨rfl, rfl⟩ := invoked.unique invoked'
    obtain rfl : path = "/tmp/work/g.nfa" := List.mem_singleton.1 member
    exact absurd (Except.ok.inj (reached.symm.trans dump)) (by decide)
  · have reached := (isBackup_iff invoked).1 isBackup
    exact absurd (Except.ok.inj (reached.symm.trans backup)) (by decide)

/-- The grammar is lost if neither its file nor the backup holds it. -/
theorem not_keepsInput {args : Arguments} {input : String} {kept : Place}
    (invoked : Invoked fs words args input) (found : fs.find input = .ok place)
    (file : fs.content? place = some content) (backup : fs.target (args.backupPath input) = .ok kept)
    (lost : (session fs words).fileSystem.content? place ≠ some content)
    (lost' : (session fs words).fileSystem.content? kept ≠ some content) :
    ¬ KeepsInput fs words := by
  intro keeps
  rcases keeps place content ((isInput_iff invoked).2 found) (content?_eq_some_iff.1 file) with
    there | ⟨kept', isBackup, there⟩
  · exact lost (content?_eq_some_iff.2 there)
  · obtain rfl := Except.ok.inj (((isBackup_iff invoked).1 isBackup).symm.trans backup)
    exact lost' (content?_eq_some_iff.2 there)

/-- The dump of the automaton is to replace the grammar. -/
def dumpOverGrammar : FileSystem :=
  .ofFiles ["tmp", "work"] [("g.automaton", oneSentence), ("t", "new".toUTF8)]

def dumpWords : List String := ["g.automaton", "--template", "t", "--dump-automaton"]

/-- An old parser is to be kept in the place of the grammar. -/
def backupOverGrammar : FileSystem :=
  .ofFiles ["tmp", "work"] [("g.rs.bak", oneSentence), ("g.rs", "old".toUTF8), ("t", "new".toUTF8)]

def backupWords : List String := ["g.rs.bak", "--template", "t", "-o", "g.rs"]

/-- Both runs succeed, and the grammar is lost. -/
theorem session_loses_input :
    (dumpOverGrammar.Ordinary ∧ (session dumpOverGrammar dumpWords).exitCode = 0 ∧
      ¬ KeepsInput dumpOverGrammar dumpWords) ∧
    backupOverGrammar.Ordinary ∧ (session backupOverGrammar backupWords).exitCode = 0 ∧
      ¬ KeepsInput backupOverGrammar backupWords := by
  refine ⟨⟨ofFiles_ordinary (by decide) (by decide), ?dump⟩,
    ofFiles_ordinary (by decide) (by decide), ?backup⟩
  case dump =>
    have invoked : Invoked dumpOverGrammar dumpWords
        ⟨"g.automaton", none, some "t", true, false, false, false, false⟩ "/tmp/work/g.automaton" :=
      ⟨by decide +kernel, by decide +kernel⟩
    have file : dumpOverGrammar.content? ["tmp", "work", "g.automaton"] = some oneSentence := by
      decide +kernel
    have backup : dumpOverGrammar.target "/tmp/work/g.rs.bak" = .ok ["tmp", "work", "g.rs.bak"] := by
      decide +kernel
    obtain ⟨success, lost, lost'⟩ : (session dumpOverGrammar dumpWords).exitCode = 0 ∧
        (session dumpOverGrammar dumpWords).fileSystem.content? ["tmp", "work", "g.automaton"] ≠
          some oneSentence ∧
        (session dumpOverGrammar dumpWords).fileSystem.content? ["tmp", "work", "g.rs.bak"] ≠
          some oneSentence := by
      decide +kernel
    exact ⟨success, not_keepsInput invoked (by decide +kernel) file backup lost lost'⟩
  case backup =>
    have invoked : Invoked backupOverGrammar backupWords
        ⟨"g.rs.bak", some "g.rs", some "t", false, false, false, false, false⟩
        "/tmp/work/g.rs.bak" :=
      ⟨by decide +kernel, by decide +kernel⟩
    have file : backupOverGrammar.content? ["tmp", "work", "g.rs.bak"] = some oneSentence := by
      decide +kernel
    have backup : backupOverGrammar.target "g.rs.bak" = .ok ["tmp", "work", "g.rs.bak"] := by
      decide +kernel
    obtain ⟨success, lost⟩ : (session backupOverGrammar backupWords).exitCode = 0 ∧
        (session backupOverGrammar backupWords).fileSystem.content? ["tmp", "work", "g.rs.bak"] ≠
          some oneSentence := by
      decide +kernel
    exact ⟨success, not_keepsInput invoked (by decide +kernel) file backup lost lost⟩

end Lalr.CommandLine
