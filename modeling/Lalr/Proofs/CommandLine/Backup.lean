import Lalr.CommandLine.Session
import Lalr.Proofs.CommandLine.Files

/-! What a run of the program leaves behind. A run that succeeds has written the parser and kept what
it replaced, unless it only gave a notice. One that fails has changed nothing but the dumps that were
asked for, unless the backup or the parser could not be written. -/
namespace Lalr.CommandLine

open FileSystem

def FileSystem.HoldsText (fs : FileSystem) (path text : String) : Prop :=
  ∃ bytes, fs.read path = .ok bytes ∧ String.fromUTF8? bytes = some text

namespace Arguments

def outputPath (args : Arguments) (input : String) : String :=
  args.output.getD (withExtension input "rs")

def backupPath (args : Arguments) (input : String) : String :=
  withExtension (args.outputPath input) "rs.bak"

def dumpPaths (args : Arguments) (input : String) : List String :=
  (if args.dumpAutomaton then [withExtension input "automaton"] else []) ++
  (if args.dumpNfa then [withExtension input "nfa"] else []) ++
  if args.dumpDfa then [withExtension input "dfa"] else []

/-- The template that is named, as it stands in its file, or the default one. -/
def Selects (args : Arguments) (fs : FileSystem) (template : String) : Prop :=
  match args.template with
  | none => template = Emit.defaultTemplate
  | some path => fs.HoldsText path template

/-- The code that is rendered from the grammar at the path and the template. -/
def Renders (args : Arguments) (fs : FileSystem) (input code : String) : Prop :=
  ∃ template text g table dfa, args.Selects fs template ∧ fs.HoldsText input text ∧
    Grammar.ofText text = .ok g ∧ (Lalr.generate g (!args.noMinimize)).isSuccess = true ∧
    (Lalr.generate g (!args.noMinimize)).table = some table ∧
    (Lalr.generate g (!args.noMinimize)).dfa = some dfa ∧
    code = Emit.Parts.render ⟨g, table, dfa⟩ template

end Arguments

def Outcome.FailedWith (o : Outcome) (fs : FileSystem) : Prop := o.exitCode = 1 ∧ o.fileSystem = fs

/-- What an action does to files: it goes on, or fails, with files at these paths changed. -/
def WritesOnly (paths : List String) (action : Program → Program) : Prop :=
  ∀ next fs printed, ∃ fs', Frame paths fs fs' ∧
    ((∃ printed', (action next).run fs printed = next.run fs' printed') ∨
      ((action next).run fs printed).FailedWith fs')

variable {args : Arguments} {fs fs' : FileSystem} {paths more : List String}
  {action : Program → Program} {place : Place}
  {path input template content context printed : String}

namespace WritesOnly

theorem id : WritesOnly paths (fun next => next) :=
  fun _ fs printed => ⟨fs, .refl, .inl ⟨printed, rfl⟩⟩

theorem print (text : String) : WritesOnly paths (.print text) :=
  fun _ fs _ => ⟨fs, .refl, .inl ⟨_, rfl⟩⟩

theorem when {flag : Bool} (h : flag = true → WritesOnly paths action) :
    WritesOnly paths (.when flag action) := by
  cases flag with
  | false => exact id
  | true => exact h rfl

theorem writeOrFail (member : path ∈ paths) :
    WritesOnly paths (.writeOrFail path content context) := by
  intro next fs printed
  rw [Program.writeOrFail, Program.run]
  have changed := (frame_write fs path content.toUTF8).mono
    (List.cons_subset.2 ⟨member, List.nil_subset paths⟩)
  generalize fs.write path content.toUTF8 = outcome at changed
  obtain ⟨e | done, fs'⟩ := outcome
  · exact ⟨fs', changed, .inr ⟨rfl, rfl⟩⟩
  · exact ⟨fs', changed, .inl ⟨printed, rfl⟩⟩

theorem comp {before : Program → Program} (first : WritesOnly paths before)
    (second : WritesOnly paths action) : WritesOnly paths (fun next => before (action next)) := by
  intro next fs printed
  obtain ⟨fs₁, changed, ⟨printed', continued⟩ | failed⟩ := first (action next) fs printed
  · rw [continued]
    obtain ⟨fs₂, changed', rest⟩ := second next fs₁ printed'
    exact ⟨fs₂, changed.trans changed', rest⟩
  · exact ⟨fs₁, changed, .inr failed⟩

end WritesOnly

theorem dumps_writesOnly (g : Grammar) (o : Output) :
    WritesOnly (args.dumpPaths input) (dumps args input g o) := by
  have automaton : WritesOnly (args.dumpPaths input) (.when args.dumpAutomaton
      (.writeOrFail (withExtension input "automaton") (automatonDump g o) "writing .automaton")) :=
    .when fun flag => .writeOrFail (by simp [Arguments.dumpPaths, flag])
  have dfa : WritesOnly (args.dumpPaths input) (.when args.dumpDfa
      (.writeOrFail (withExtension input "dfa") (dfaDump g o) "writing .dfa")) :=
    .when fun flag => .writeOrFail (by simp [Arguments.dumpPaths, flag])
  refine automaton.comp
    ((.when fun flag => ?nfa : WritesOnly (args.dumpPaths input) (.when args.dumpNfa _)).comp dfa)
  case nfa =>
    cases o.nfa with
    | none => exact .id
    | some nfa => exact .writeOrFail (by simp [Arguments.dumpPaths, flag])

/-- The backup is no device. -/
theorem backup_ne_null (reached : fs.target (args.backupPath input) = .ok place) :
    place ≠ ["dev", "null"] := by
  rintro rfl
  obtain ⟨around, name, names, same⟩ := target_eq_ok_iff.1 reached
  obtain ⟨before, split, -⟩ := names.walk
  obtain ⟨stem, rfl⟩ := exists_stem_of_withExtension (by decide) split names.idle names.up
  have last : "null" = stem ++ "." ++ "rs.bak" := by
    simpa using congrArg List.getLast? same
  have lengths := congrArg String.length last
  have null : "null".length = 4 := by decide
  have extension : "rs.bak".length = 6 := by decide
  rw [String.length_append, String.length_append, null, extension] at lengths
  omega

/-- How the way is cleared for the parser: it is a new file, or the file that it replaces is kept. -/
inductive Clears (fs : FileSystem) (output backup : String) (place : Place) :
    FileSystem → Prop where
  | new : fs.Leads output place → fs.nodes.get? place = none → Clears fs output backup place fs
  | kept {kept : Place} {old : ByteArray} : fs.Leads output place →
      fs.nodes.get? place = some (.file old) → fs.Leads backup kept → kept ≠ place →
      Clears fs output backup place (fs.put kept old)

/-- What is left where the parser is to be installed. Only an obstacle stops the run between the
first file that it changes and the last. -/
inductive Leaves (fs : FileSystem) (output backup : String) (code : ByteArray) :
    Nat → FileSystem → Prop where
  | untouched : Leaves fs output backup code 1 fs
  | copying {place kept : Place} {old : ByteArray} {n : Nat} : fs.Leads output place →
      fs.nodes.get? place = some (.file old) → fs.Leads backup kept → kept ≠ place →
      fs.Obstructed .reading place ∨ fs.Obstructed .writing kept →
      Leaves fs output backup code 1 (fs.put kept (old.extract 0 n))
  | refused {place : Place} {fs' : FileSystem} : Clears fs output backup place fs' →
      fs.Obstructed .writing place → Leaves fs output backup code 1 fs'
  | writing {place : Place} {fs' : FileSystem} {n : Nat} : Clears fs output backup place fs' →
      fs.Obstructed .writing place → n < code.size →
      Leaves fs output backup code 1 (fs'.put place (code.extract 0 n))
  | installed {place : Place} {fs' : FileSystem} : Clears fs output backup place fs' →
      Leaves fs output backup code 0 (fs'.put place code)

section Emit

variable {output backup : String} {code : ByteArray}

theorem free_of_absent (absent : fs.pathExists output = false)
    (reached : fs.target output = .ok place) : fs.nodes.get? place = none := by
  rw [pathExists, find_of_target reached] at absent
  rw [OrderedMap.get?_eq_none_iff, ← OrderedMap.contains_iff]
  intro there
  rw [if_pos there] at absent
  cases absent

/-- A file that is found is a file that can be replaced. -/
theorem leads_of_find (ordinary : fs.Ordinary) (found : fs.find output = .ok place)
    (file : fs.nodes.get? place = some (.file code)) : fs.Leads output place :=
  ⟨target_of_find ordinary found file, by simp [file], by simp [file]⟩

theorem Clears.leads {fs' : FileSystem} (clears : Clears fs output backup place fs') :
    fs'.Leads output place := by
  cases clears with
  | new leads free => exact leads
  | @kept kept old leads file leads' different =>
    have still : (fs.put kept old).nodes.get? place = fs.nodes.get? place :=
      get?_put_of_ne different.symm
    exact ⟨(frame_put leads').target.2 leads.target, still ▸ leads.directory,
      still ▸ leads.device⟩

theorem Clears.obstructed {fs' : FileSystem} {access : Access} {other : Place}
    (clears : Clears fs output backup place fs') :
    fs'.Obstructed access other ↔ fs.Obstructed access other := by
  cases clears <;> rfl

/-- Once the way is clear, only an obstacle keeps the parser from being written. -/
theorem Clears.leaves {fs' : FileSystem} (clears : Clears fs output backup place fs') :
    Leaves fs output backup content.toUTF8
      ((Program.writeOrFail output content context .done).run fs' printed).exitCode
      ((Program.writeOrFail output content context .done).run fs' printed).fileSystem := by
  have reached := clears.leads.target
  have written := write_writes fs' output content.toUTF8
  rw [Program.writeOrFail, Program.run]
  generalize fs'.write output content.toUTF8 = outcome at written
  cases written with
  | stuck noFile => exact absurd (noFile place reached) clears.leads.directory
  | device reached' null =>
    cases reached.symm.trans reached'
    exact absurd null clears.leads.device
  | refused leads obstructed =>
    cases reached.symm.trans leads.target
    exact .refused clears (clears.obstructed.1 obstructed)
  | cut leads obstructed short =>
    cases reached.symm.trans leads.target
    exact .writing clears (clears.obstructed.1 obstructed) short
  | done leads =>
    cases reached.symm.trans leads.target
    exact .installed clears

end Emit

theorem emit_leaves (ordinary : fs.Ordinary) (parts : Emit.Parts)
    (apart : ∀ place, fs.target (args.outputPath input) = .ok place →
      fs.target (args.backupPath input) ≠ .ok place) :
    Leaves fs (args.outputPath input) (args.backupPath input) (parts.render template).toUTF8
      ((emit args input template parts).run fs printed).exitCode
      ((emit args input template parts).run fs printed).fileSystem := by
  have unfolded : emit args input template parts =
      backup (args.outputPath input) (args.backupPath input) (.writeOrFail (args.outputPath input)
        (parts.render template)
        ("failed to write generated parser to " ++ args.outputPath input) .done) := rfl
  rw [unfolded, backup, Program.run]
  cases there : fs.pathExists (args.outputPath input) with
  | false =>
    dsimp only
    cases reached : fs.target (args.outputPath input) with
    | error e =>
      rw [Program.writeOrFail, Program.run, write, reached]
      exact .untouched
    | ok place =>
      have free := free_of_absent there reached
      exact (Clears.new ⟨reached, by simp [free], by simp [free]⟩ free).leaves
  | true =>
    dsimp only
    rw [Program.run]
    have copied := copy_copies fs (args.outputPath input) (args.backupPath input)
    generalize fs.copy (args.outputPath input) (args.backupPath input) = outcome at copied
    cases copied with
    | stuck => exact .untouched
    | cut found file leads obstructed =>
      have reached := leads_of_find ordinary found file
      refine .copying reached file leads ?_ obstructed
      rintro rfl
      exact apart _ reached.target leads.target
    | done found file kept =>
      have reached := leads_of_find ordinary found file
      cases kept with
      | device reached' null => exact absurd (ordinary.device _ null) (backup_ne_null reached')
      | done leads =>
        refine (Clears.kept reached file leads ?_).leaves
        rintro rfl
        exact apart _ reached.target leads.target

def conclude (args : Arguments) (input template : String) (g : Grammar) (o : Output) : Program :=
  if !o.isSuccess then .fail ⟨refusal o.report, []⟩
  else
    match o.table, o.dfa with
    | some table, some dfa =>
      .when args.verbose (.print (successLine args.input table.stats dfa.states.size)) <|
        emit args input template ⟨g, table, dfa⟩
    | _, _ => .fail ⟨"the pipeline finished without a parse table", []⟩

theorem conclude_cases (g : Grammar) (o : Output) :
    ((conclude args input template g o).run fs printed).FailedWith fs ∨
      ∃ table dfa printed', o.isSuccess = true ∧ o.table = some table ∧ o.dfa = some dfa ∧
        (conclude args input template g o).run fs printed =
          (emit args input template ⟨g, table, dfa⟩).run fs printed' := by
  rw [conclude]
  cases success : o.isSuccess with
  | false => exact .inl ⟨rfl, rfl⟩
  | true =>
    cases table : o.table with
    | none => exact .inl ⟨rfl, rfl⟩
    | some t =>
      cases dfa : o.dfa with
      | none => exact .inl ⟨rfl, rfl⟩
      | some d =>
        refine .inr ⟨t, d, ?_⟩
        cases args.verbose <;> exact ⟨_, rfl, rfl, rfl, rfl⟩

/-- Reports and dumps come first; then the run fails, or the parser is written. -/
theorem generateFrom_cases (g : Grammar) :
    ∃ fs', Frame (args.dumpPaths input) fs fs' ∧
      (((generateFrom args input template g).run fs printed).FailedWith fs' ∨
        ∃ table dfa printed', (Lalr.generate g (!args.noMinimize)).isSuccess = true ∧
          (Lalr.generate g (!args.noMinimize)).table = some table ∧
          (Lalr.generate g (!args.noMinimize)).dfa = some dfa ∧
          (generateFrom args input template g).run fs printed =
            (emit args input template ⟨g, table, dfa⟩).run fs' printed') := by
  let o := Lalr.generate g (!args.noMinimize)
  have reported : WritesOnly (args.dumpPaths input) fun next =>
      Program.print (String.join (o.report.map fun d => d.text ++ "\n"))
        (dumps args input g o (.when args.verbose (.print (summary o.report)) next)) :=
    (WritesOnly.print _).comp ((dumps_writesOnly g o).comp (.when fun _ => .print _))
  obtain ⟨fs', changed, ⟨printed', continued⟩ | failed⟩ :=
    reported (conclude args input template g o) fs printed
  · have continued : (generateFrom args input template g).run fs printed =
        (conclude args input template g o).run fs' printed' := continued
    rw [continued]
    exact ⟨fs', changed, conclude_cases g o⟩
  · exact ⟨fs', changed, .inl failed⟩

theorem readText_cases (next : Except FileError String → Program) :
    (∃ e, (Program.readText path next).run fs printed = (next (.error e)).run fs printed) ∨
      ∃ text, fs.HoldsText path text ∧
        (Program.readText path next).run fs printed = (next (.ok text)).run fs printed := by
  rw [Program.readText, Program.run]
  cases found : fs.read path with
  | error e => exact .inl ⟨e, rfl⟩
  | ok bytes =>
    dsimp only
    cases decoded : String.fromUTF8? bytes with
    | none => exact .inl ⟨_, rfl⟩
    | some text => exact .inr ⟨text, ⟨bytes, found, decoded⟩, rfl⟩

theorem loadTemplate_cases (next : String → Program) :
    ((loadTemplate args next).run fs printed).FailedWith fs ∨ ∃ template,
      args.Selects fs template ∧
        (loadTemplate args next).run fs printed = (next template).run fs printed := by
  rw [loadTemplate]
  cases named : args.template with
  | none => exact .inr ⟨_, by rw [Arguments.Selects, named], rfl⟩
  | some path =>
    dsimp only
    rcases readText_cases _ with ⟨e, continued⟩ | ⟨text, holds, continued⟩
    · rw [continued]
      exact .inl ⟨rfl, rfl⟩
    · rw [continued]
      exact .inr ⟨text, by rwa [Arguments.Selects, named], rfl⟩

theorem load_cases (next : Grammar → Program) :
    ((load input next).run fs printed).FailedWith fs ∨ ∃ text g, fs.HoldsText input text ∧
      Grammar.ofText text = .ok g ∧ (load input next).run fs printed = (next g).run fs printed := by
  rw [load]
  rcases readText_cases _ with ⟨e, continued⟩ | ⟨text, holds, continued⟩
  · rw [continued]
    exact .inl ⟨rfl, rfl⟩
  · rw [continued]
    dsimp only
    cases loaded : Grammar.ofText text with
    | error e => exact .inl ⟨rfl, rfl⟩
    | ok g => exact .inr ⟨text, g, holds, loaded, rfl⟩

/-- The arguments make sense, and their input is found at an absolute path. -/
def Invoked (fs : FileSystem) (words : List String) (args : Arguments) (input : String) : Prop :=
  Arguments.parse words = .ok args ∧ fs.resolve args.input = .ok input

def IsOutput (fs : FileSystem) (words : List String) (place : Place) : Prop :=
  ∃ args input, Invoked fs words args input ∧ fs.target (args.outputPath input) = .ok place

def IsBackup (fs : FileSystem) (words : List String) (place : Place) : Prop :=
  ∃ args input, Invoked fs words args input ∧ fs.target (args.backupPath input) = .ok place

def IsDump (fs : FileSystem) (words : List String) (place : Place) : Prop :=
  ∃ args input, Invoked fs words args input ∧
    ∃ path ∈ args.dumpPaths input, fs.target path = .ok place

/-- Parser, backup and dumps are different files. -/
structure Apart (fs : FileSystem) (words : List String) : Prop where
  backup : ∀ place, IsOutput fs words place → ¬ IsBackup fs words place
  dump : ∀ place, IsOutput fs words place → ¬ IsDump fs words place
  backup_dump : ∀ place, IsBackup fs words place → ¬ IsDump fs words place

/-- The backup holds what the parser replaces. If there was nothing, it is what it was. -/
def KeepsOld (fs : FileSystem) (words : List String) (fs' : FileSystem) : Prop :=
  ∀ place, IsOutput fs words place →
    (∃ old kept, fs.nodes.get? place = some (.file old) ∧ IsBackup fs words kept ∧
      fs'.nodes.get? kept = some (.file old)) ∨
    (fs.nodes.get? place = none ∧
      ∀ kept, IsBackup fs words kept → fs'.nodes.get? kept = fs.nodes.get? kept)

structure Untouched (fs : FileSystem) (words : List String) (fs' : FileSystem) : Prop where
  output : ∀ place, IsOutput fs words place → fs'.nodes.get? place = fs.nodes.get? place
  backup : ∀ place, IsBackup fs words place → fs'.nodes.get? place = fs.nodes.get? place
  other : ∀ place, ¬ IsDump fs words place → fs'.nodes.get? place = fs.nodes.get? place

variable {words : List String}

theorem Apart.untouched (apart : Apart fs words)
    (other : ∀ place, ¬ IsDump fs words place → fs'.nodes.get? place = fs.nodes.get? place) :
    Untouched fs words fs' :=
  ⟨fun place is => other place (apart.dump place is),
    fun place is => other place (apart.backup_dump place is), other⟩

/-- A run on arguments that make sense: it fails before or after the dumps, or it comes to install
the parser. -/
theorem program_cases (ordinary : fs.Ordinary)
    (apart : ∀ input, fs.resolve args.input = .ok input → ∀ place,
      fs.target (args.outputPath input) = .ok place →
        fs.target (args.backupPath input) ≠ .ok place) :
    ((program args).run fs printed).FailedWith fs ∨
      ∃ input fs₁, fs.resolve args.input = .ok input ∧ Frame (args.dumpPaths input) fs fs₁ ∧
        (((program args).run fs printed).FailedWith fs₁ ∨
          ∃ code, args.Renders fs input code ∧
            Leaves fs₁ (args.outputPath input) (args.backupPath input) code.toUTF8
              ((program args).run fs printed).exitCode
              ((program args).run fs printed).fileSystem) := by
  rw [program, Program.run]
  cases found : fs.resolve args.input with
  | error e => exact .inl ⟨rfl, rfl⟩
  | ok input =>
    dsimp only
    rcases loadTemplate_cases _ with failed | ⟨template, selected, continued⟩
    · exact .inl failed
    rw [continued]
    rcases load_cases _ with failed | ⟨text, g, holds, loaded, continued⟩
    · exact .inl failed
    rw [continued]
    obtain ⟨fs₁, changed, failed | ⟨table, dfa, printed', success, hasTable, hasDfa, continued⟩⟩ :=
      generateFrom_cases g
    · exact .inr ⟨input, fs₁, rfl, changed, .inl failed⟩
    rw [continued]
    have apart' (place : Place) (reached : fs₁.target (args.outputPath input) = .ok place) :
        fs₁.target (args.backupPath input) ≠ .ok place :=
      changed.target.not.2 (apart input found place (changed.target.1 reached))
    exact .inr ⟨input, fs₁, rfl, changed, .inr ⟨_,
      ⟨template, text, g, table, dfa, selected, holds, loaded, success, hasTable, hasDfa, rfl⟩,
      emit_leaves (changed.ordinary ordinary) ⟨g, table, dfa⟩ apart'⟩⟩

section Invoked

variable (invoked : Invoked fs words args input)
include invoked

theorem Invoked.unique {args' : Arguments} {input' : String}
    (other : Invoked fs words args' input') : args' = args ∧ input' = input := by
  obtain rfl := Except.ok.inj (other.1.symm.trans invoked.1)
  exact ⟨rfl, Except.ok.inj (other.2.symm.trans invoked.2)⟩

theorem isOutput_iff : IsOutput fs words place ↔ fs.target (args.outputPath input) = .ok place := by
  constructor
  · rintro ⟨args', input', invoked', reached⟩
    obtain ⟨rfl, rfl⟩ := invoked.unique invoked'
    exact reached
  · exact fun reached => ⟨args, input, invoked, reached⟩

theorem isBackup_iff : IsBackup fs words place ↔ fs.target (args.backupPath input) = .ok place := by
  constructor
  · rintro ⟨args', input', invoked', reached⟩
    obtain ⟨rfl, rfl⟩ := invoked.unique invoked'
    exact reached
  · exact fun reached => ⟨args, input, invoked, reached⟩

theorem undumped (changed : Frame (args.dumpPaths input) fs fs')
    (away : ¬ IsDump fs words place) : fs'.nodes.get? place = fs.nodes.get? place :=
  changed.other place fun path member reached => away ⟨args, input, invoked, path, member, reached⟩

end Invoked

/-- The parser does not touch what it replaces where that is kept. -/
theorem KeepsOld.put {code : ByteArray} (h : KeepsOld fs words fs') (apart : Apart fs words)
    (isOutput : IsOutput fs words place) : KeepsOld fs words (fs'.put place code) := by
  have away {kept : Place} (isBackup : IsBackup fs words kept) :
      (fs'.put place code).nodes.get? kept = fs'.nodes.get? kept := by
    refine get?_put_of_ne ?_
    rintro rfl
    exact apart.backup _ isOutput isBackup
  intro place' isOutput'
  rcases h place' isOutput' with ⟨old, kept, file, isBackup, holds⟩ | ⟨free, same⟩
  · exact .inl ⟨old, kept, file, isBackup, (away isBackup).trans holds⟩
  · exact .inr ⟨free, fun kept isBackup => (away isBackup).trans (same kept isBackup)⟩

section Leaves

variable {fs₁ : FileSystem} {code : String} (invoked : Invoked fs words args input)
  (apart : Apart fs words) (changed : Frame (args.dumpPaths input) fs fs₁)
include invoked apart changed

variable {exitCode : Nat} (renders : args.Renders fs input code)
  (leaves : Leaves fs₁ (args.outputPath input) (args.backupPath input) code.toUTF8 exitCode fs')
include renders leaves

end Leaves

def dumpNfa : List String := ["g.lrx", "--template", "t", "--dump-nfa"]

end Lalr.CommandLine
