import FourVin.Command.Path

/-!
The directory in which the command runs: a set of files by name, without directories below it. A
path is followed name by name, and the first name that leads nowhere decides the fault. Outside the
directory there are the directories that contain it, up to the root, and a few of the system's own.
Only the null device is known there: it reads as empty. What is written outside is not kept.
-/
namespace FourVin

inductive FileFault where
  /-- The system refuses, with a number and its description. -/
  | system (code : Nat) (description : String)
  | notText
  deriving DecidableEq

namespace FileFault

def notFound : FileFault := system 2 "No such file or directory"

def notDirectory : FileFault := system 20 "Not a directory"

def isDirectory : FileFault := system 21 "Is a directory"

def nameTooLong : FileFault := system 36 "File name too long"

def message : FileFault → String
  | system code description => description ++ " (os error " ++ code.repr ++ ")"
  | notText => "stream did not contain valid UTF-8"

end FileFault

inductive Place where
  | working
  /-- A directory that contains the working directory. -/
  | around
  | root
  /-- A directory of the system, right below the root. -/
  | system (name : String)
  deriving DecidableEq

namespace Place

def systemNames : List String := ["bin", "dev", "etc", "lib", "sbin", "tmp", "usr", "var"]

/-- The directory that contains a directory. The root contains itself. -/
def parent : Place → Place
  | working => around
  | around => around
  | root => root
  | system _ => root

end Place

inductive Entry where
  | directory (place : Place)
  | file (content : ByteArray)

structure Directory where
  files : List (String × ByteArray)

namespace Directory

def find? (d : Directory) (name : String) : Option ByteArray := d.files.lookup name

def named? (d : Directory) (place : Place) (name : String) : Option Entry :=
  match place with
  | .working => (d.find? name).map .file
  | .around => none
  | .root => if name ∈ Place.systemNames then some (.directory (.system name)) else none
  | .system directory =>
    if directory = "dev" ∧ name = "null" then some (.file ByteArray.empty) else none

def entry? (d : Directory) (place : Place) (name : String) : Except FileFault (Option Entry) :=
  if name = "." then .ok (some (.directory place))
  else if name = ".." then .ok (some (.directory place.parent))
  else if name.utf8ByteSize > Path.maxNameSize then .error .nameTooLong
  else .ok (d.named? place name)

def follow (d : Directory) (place : Place) : List String → Except FileFault Place
  | [] => .ok place
  | name :: rest => do
    match ← d.entry? place name with
    | some (.directory next) => d.follow next rest
    | some (.file _) => .error .notDirectory
    | none => .error .notFound

/-- Where a path leads: a place, and a name there that may or may not stand for something. -/
def locate (d : Directory) (path : String) : Except FileFault (Place × String) := do
  if path.isEmpty then throw .notFound
  if path.utf8ByteSize > Path.maxSize then throw .nameTooLong
  let names := Path.names path
  let place ← d.follow (if Path.isAbsolute path then .root else .working) names.dropLast
  return (place, names.getLast?.getD ".")

def readText (d : Directory) (path : String) : Except FileFault String := do
  let (place, name) ← d.locate path
  match ← d.entry? place name with
  | none => .error .notFound
  | some (.directory _) => .error .isDirectory
  | some (.file content) =>
    if Path.endsInSlash path then .error .notDirectory
    else
      match String.fromUTF8? content with
      | some text => .ok text
      | none => .error .notText

def insert (d : Directory) (name : String) (content : ByteArray) : Directory :=
  ⟨d.files.filter (fun f => f.1 ≠ name) ++ [(name, content)]⟩

/-- The directory with a text as the content of a file. A slash at the end of the path is refused
before the name in front of it is looked up. -/
def writeText (d : Directory) (path text : String) : Except FileFault Directory := do
  let (place, name) ← d.locate path
  if Path.endsInSlash path then throw .isDirectory
  match ← d.entry? place name with
  | some (.directory _) => .error .isDirectory
  | _ => return if place = .working then d.insert name text.toUTF8 else d

end Directory

end FourVin
