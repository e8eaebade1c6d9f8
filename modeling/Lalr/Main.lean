import Lalr.CommandLine.Generate

/-! The command line program. -/
namespace Lalr.CommandLine

def fileError : IO.Error → FileError
  | .noFileOrDirectory .. => .notFound
  | .inappropriateType _ 20 _ => .notDirectory
  | .inappropriateType .. => .isDirectory
  | e => .other (toString e)

def attempt (action : IO α) : IO (Except FileError α) := do
  try
    return .ok (← action)
  catch e =>
    return .error (fileError e)

def realPath (path : String) : IO String := do
  return (← IO.FS.realPath path).toString

def copyFile (source target : String) : IO (Except FileError Unit) := do
  match ← attempt (IO.FS.readBinFile source) with
  | .error .isDirectory => return .error .notRegular
  | .error e => return .error e
  | .ok bytes => attempt (IO.FS.writeBinFile target bytes)

def Program.execute : Program → IO UInt32
  | .resolve path next => do (next (← attempt (realPath path))).execute
  | .read path next => do (next (← attempt (IO.FS.readBinFile path))).execute
  | .pathExists path next => do
    let found ← attempt (realPath path)
    (next found.isOk).execute
  | .copy source target next => do (next (← copyFile source target)).execute
  | .write path content next => do (next (← attempt (IO.FS.writeFile path content))).execute
  | .print text next => do
    IO.print text
    next.execute
  | .done => return 0
  | .fail failure => do
    IO.eprint failure.text
    return 1

end Lalr.CommandLine

open Lalr.CommandLine in
def main (args : List String) : IO UInt32 := do
  match Arguments.parse args with
  | .error notice =>
    if notice = .misuse then IO.eprint notice.text else IO.print notice.text
    return .ofNat notice.exitCode
  | .ok args => (program args).execute
