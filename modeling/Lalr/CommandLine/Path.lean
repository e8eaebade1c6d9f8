/-! Paths as they are written: parts between slashes, and the extension of the last name. -/
namespace Lalr.CommandLine

/-- The parts between the slashes of a path, of which there is one more than slashes. -/
def parts (path : String) : List String := (path.toList.splitOn '/').map .ofList

def isAbsolute (path : String) : Bool := path.toList.head? == some '/'

def isIdle (part : String) : Bool := part == "" || part == "."

def isUp (part : String) : Bool := part == ".."

/-- The last name of a path, behind the parts in front of it. What is idle at the end does not
count. A path that ends in `..` has no last name. -/
def lastName? (path : String) : Option (List String × String) :=
  match (parts path).reverse.dropWhile isIdle with
  | [] => none
  | name :: before => if isUp name then none else some (before.reverse, name)

/-- The stem of a name and its extension, which are in front of and behind the last dot. A dot
at the front begins no extension. -/
def splitName (name : String) : String × Option String :=
  match name.toList.reverse.span (· != '.') with
  | (_, []) => (name, none)
  | (behind, _ :: front) =>
    if front.isEmpty then (name, none)
    else (.ofList front.reverse, some (.ofList behind.reverse))

/-- Put an extension behind the stem of the last name. Nothing is left of what was behind the
stem, and a path without a last name stays as it is. -/
def setExtension (path extension : String) : String :=
  match lastName? path with
  | none => path
  | some (before, name) =>
    "/".intercalate (before ++ [(splitName name).1 ++ "." ++ extension])

def extensionLength (path : String) : Nat :=
  match lastName? path with
  | none => 0
  | some (_, name) => ((splitName name).2.getD "").length

/-- The path with another extension. First as much is cut off at the end of the path as the
extension is long. So `..x` becomes `..`, and that takes no extension. -/
def withExtension (path extension : String) : String :=
  setExtension (.ofList (path.toList.take (path.length - extensionLength path))) extension

end Lalr.CommandLine
