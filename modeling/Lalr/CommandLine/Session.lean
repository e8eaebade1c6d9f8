import Lalr.CommandLine.FileSystem
import Lalr.CommandLine.Generate

/-! The program on a file system, from its arguments to what it leaves behind. -/
namespace Lalr.CommandLine

structure Outcome where
  exitCode : Nat
  stdout : String
  stderr : String
  fileSystem : FileSystem

/-- Run a program on a file system. `printed` is what it has printed before. A request that fails
may have changed files. -/
def Program.run (fs : FileSystem) (printed : String) : Program → Outcome
  | .resolve path next => (next (fs.resolve path)).run fs printed
  | .read path next => (next (fs.read path)).run fs printed
  | .pathExists path next => (next (fs.pathExists path)).run fs printed
  | .copy source target next =>
    let (result, fs') := fs.copy source target
    (next result).run fs' printed
  | .write path content next =>
    let (result, fs') := fs.write path content.toUTF8
    (next result).run fs' printed
  | .print text next => next.run fs (printed ++ text)
  | .done => ⟨0, printed, "", fs⟩
  | .fail failure => ⟨1, printed, failure.text, fs⟩

def Outcome.changes (o : Outcome) (before : FileSystem) : List (String × ByteArray) :=
  o.fileSystem.files.filter fun file => !before.files.contains file

/-- A notice changes nothing. It is an error message only if the arguments make no sense. -/
def session (fs : FileSystem) (args : List String) : Outcome :=
  match Arguments.parse args with
  | .error .misuse => ⟨Notice.misuse.exitCode, "", Notice.misuse.text, fs⟩
  | .error notice => ⟨notice.exitCode, notice.text, "", fs⟩
  | .ok args => (program args).run fs ""

end Lalr.CommandLine
