/-! Programs as trees of requests. What a program asks of its surroundings, and how it goes
on with each answer, is a value; it can be run on the files of a computer or on a model of
them. -/
namespace Lalr.CommandLine

inductive FileError where
  | notFound
  | notDirectory
  | isDirectory
  | nameTooLong
  | notRegular
  | invalidUtf8
  | other (text : String)
  deriving DecidableEq, Repr

def FileError.text : FileError → String
  | notFound => "No such file or directory (os error 2)"
  | notDirectory => "Not a directory (os error 20)"
  | isDirectory => "Is a directory (os error 21)"
  | nameTooLong => "File name too long (os error 36)"
  | notRegular => "the source path is neither a regular file nor a symlink to a regular file"
  | invalidUtf8 => "stream did not contain valid UTF-8"
  | other text => text

/-- What went wrong, from the outermost circumstance to the innermost cause. -/
structure Failure where
  message : String
  causes : List String := []
  deriving DecidableEq, Repr

namespace Failure

def causeLines : List String → List String
  | [] => []
  | [cause] => ["", "Caused by:", "    " ++ cause]
  | causes =>
    "" :: "Caused by:" :: causes.zipIdx.map fun (cause, i) =>
      let number := toString i
      String.ofList (List.replicate (5 - number.length) ' ') ++ number ++ ": " ++ cause

def text (f : Failure) : String :=
  String.join ((("Error: " ++ f.message) :: causeLines f.causes).map (· ++ "\n"))

end Failure

inductive Program where
  /-- The absolute path of a file or directory that exists. -/
  | resolve (path : String) (next : Except FileError String → Program)
  | read (path : String) (next : Except FileError ByteArray → Program)
  | pathExists (path : String) (next : Bool → Program)
  | copy (source target : String) (next : Except FileError Unit → Program)
  | write (path : String) (content : String) (next : Except FileError Unit → Program)
  | print (text : String) (next : Program)
  | done
  | fail (failure : Failure)

namespace Program

def readText (path : String) (next : Except FileError String → Program) : Program :=
  .read path fun
    | .error e => next (.error e)
    | .ok bytes =>
      match String.fromUTF8? bytes with
      | some text => next (.ok text)
      | none => next (.error .invalidUtf8)

def writeOrFail (path content context : String) (next : Program) : Program :=
  .write path content fun
    | .ok () => next
    | .error e => .fail ⟨context, [e.text]⟩

def when (condition : Bool) (action : Program → Program) (next : Program) : Program :=
  if condition then action next else next

end Program
end Lalr.CommandLine
