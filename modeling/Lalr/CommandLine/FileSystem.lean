import Lalr.CommandLine.Path
import Lalr.CommandLine.Program
import Lalr.OrderedMap

/-! A model of the files of a computer: a tree of directories without links, in which one
directory is the current one. -/
namespace Lalr.CommandLine

/-- The names that lead from the root to something. -/
abbrev Place := List String

def Place.path (place : Place) : String := "/" ++ "/".intercalate place

inductive Node where
  | directory
  | file (content : ByteArray)
  /-- Always empty, whatever is written to it. -/
  | null

inductive Access where
  | reading
  | writing

/-- What stands in the way of an access to a file. -/
inductive Obstacle where
  /-- The file is not opened. -/
  | refusal (cause : FileError)
  /-- The file is opened, but only so many bytes get through. -/
  | shortage (bytes : Nat) (cause : FileError)

structure FileSystem where
  nodes : OrderedMap Place Node
  current : Place
  /-- A file may be protected, a disk damaged or full. What is full depends on all that is there. -/
  obstacle : OrderedMap Place Node → Access → Place → Option Obstacle

def nameLimit : Nat := 255

def pathLimit : Nat := 4095

namespace FileSystem

def usualDirectories : List String :=
  ["boot", "dev", "etc", "home", "media", "mnt", "opt", "proc", "root", "run", "srv", "sys", "tmp",
    "usr", "var"]

/-- The usual directories, `/dev/null`, and files in the current directory. Nothing stands in the
way of an access. -/
def ofFiles (current : Place) (files : List (String × ByteArray)) : FileSystem where
  nodes := .ofList <|
    (List.range (current.length + 1)).map (fun n => (current.take n, .directory)) ++
      usualDirectories.map (fun name => ([name], .directory)) ++ [(["dev", "null"], .null)] ++
      files.map fun (name, content) => (current ++ [name], .file content)
  current := current
  obstacle _ _ _ := none

def files (fs : FileSystem) : List (String × ByteArray) :=
  fs.nodes.toList.filterMap fun
    | (place, .file content) =>
      if place.dropLast = fs.current then place.getLast?.map (·, content) else none
    | _ => none

def start (fs : FileSystem) (path : String) : Place := if isAbsolute path then [] else fs.current

def isDirectory (fs : FileSystem) (place : Place) : Bool :=
  match fs.nodes.get? place with
  | some .directory => true
  | _ => false

/-- Follow the parts of a path. What is followed by another part, if only by an empty one, has
to be a directory. There is nothing above the root. -/
def walk (fs : FileSystem) (place : Place) : List String → Except FileError Place
  | [] => .ok place
  | part :: rest =>
    if !fs.isDirectory place then .error .notDirectory
    else if isIdle part then fs.walk place rest
    else if isUp part then fs.walk place.dropLast rest
    else if nameLimit < part.utf8ByteSize then .error .nameTooLong
    else if fs.nodes.contains (place ++ [part]) then fs.walk (place ++ [part]) rest
    else .error .notFound

def locate (fs : FileSystem) (path : String) : Except FileError Place :=
  if path.isEmpty then .error .notFound else fs.walk (fs.start path) (parts path)

def find (fs : FileSystem) (path : String) : Except FileError Place :=
  if pathLimit < path.utf8ByteSize then .error .nameTooLong else fs.locate path

/-- The place of a file that is to be written, be it there or not. A path that ends as only
those of directories do is refused once the way to its end is clear. -/
def target (fs : FileSystem) (path : String) : Except FileError Place :=
  if pathLimit < path.utf8ByteSize then .error .nameTooLong
  else if path.isEmpty then .error .notFound
  else
    match (parts path).reverse.dropWhile (· == "") with
    | [] => .error .isDirectory
    | name :: before =>
      (fs.walk (fs.start path) (before.reverse ++ [""])).bind fun around =>
        if isIdle name || isUp name || (parts path).getLast? == some "" then .error .isDirectory
        else if nameLimit < name.utf8ByteSize then .error .nameTooLong
        else .ok (around ++ [name])

def resolve (fs : FileSystem) (path : String) : Except FileError String :=
  (fs.locate path).map Place.path

def pathExists (fs : FileSystem) (path : String) : Bool := (fs.find path).isOk

/-- The bytes of a content that get through, if the file is opened, and whether they are all. -/
def transfer (fs : FileSystem) (access : Access) (place : Place) (content : ByteArray) :
    Except FileError (ByteArray × Except FileError Unit) :=
  match fs.obstacle fs.nodes access place with
  | none => .ok (content, .ok ())
  | some (.refusal cause) => .error cause
  | some (.shortage bytes cause) =>
    if bytes < content.size then .ok (content.extract 0 bytes, .error cause)
    else .ok (content, .ok ())

def read (fs : FileSystem) (path : String) : Except FileError ByteArray := do
  let place ← fs.find path
  match fs.nodes.get? place with
  | some (.file content) =>
    let (bytes, result) ← fs.transfer .reading place content
    result
    return bytes
  | some .null => return .empty
  | some .directory => throw .isDirectory
  | none => throw .notFound

def put (fs : FileSystem) (place : Place) (content : ByteArray) : FileSystem :=
  { fs with nodes := fs.nodes.insert place (.file content) }

/-- Replace the content of a file, or create one. What was in a file that is opened is lost, even if
not all of the new content gets through. -/
def write (fs : FileSystem) (path : String) (content : ByteArray) :
    Except FileError Unit × FileSystem :=
  match fs.target path with
  | .error e => (.error e, fs)
  | .ok place =>
    match fs.nodes.get? place with
    | some .directory => (.error .isDirectory, fs)
    | some .null => (.ok (), fs)
    | _ =>
      match fs.transfer .writing place content with
      | .error e => (.error e, fs)
      | .ok (bytes, result) => (result, fs.put place bytes)

/-- Only files can be copied. What has been read of a file is written even if it is not all. -/
def copy (fs : FileSystem) (source target : String) : Except FileError Unit × FileSystem :=
  match fs.find source with
  | .error e => (.error e, fs)
  | .ok place =>
    match fs.nodes.get? place with
    | some (.file content) =>
      match fs.transfer .reading place content with
      | .error e => (.error e, fs)
      | .ok (bytes, result) =>
        let (written, fs') := fs.write target bytes
        (written.bind fun _ => result, fs')
    | _ => (.error .notRegular, fs)

end FileSystem
end Lalr.CommandLine
