import IncrementalParsing.CommandLine.Execution

/-!
# Running in a directory of memory

A `Directory` is a list of named files, on which command lines can be run one after the other.
`Directory.find` follows a path as the system does: every entry but the last has to be a directory,
and the first entry that is not there, or is no directory, ends the search.
-/

namespace IncrementalParsing

/-- Files by name; there are no directories among them. -/
structure Directory where
  files : List (String × ByteArray)
deriving Inhabited

/-- Why a path cannot be used. -/
inductive PathFault where
  | notFound
  | notDirectory
  | isDirectory
  /-- The path, or one of its entries, is too long. -/
  | tooLong
deriving DecidableEq, Inhabited

/-- What the system says of a fault. -/
def PathFault.message : PathFault → String
  | .notFound => "No such file or directory (os error 2)"
  | .notDirectory => "Not a directory (os error 20)"
  | .isDirectory => "Is a directory (os error 21)"
  | .tooLong => "File name too long (os error 36)"

namespace Directory

/-- A place among the directories: this one, or one outside, of which no files are known. -/
inductive Place where
  | here
  | outside
deriving DecidableEq, Inhabited

/-- What stands at the end of a path. -/
inductive Target where
  | directory
  | file (name : String) (bytes : ByteArray)
  /-- There is no such entry yet. -/
  | free (place : Place) (name : String)
  /-- The device that is always empty. -/
  | null
deriving Inhabited

def file? (d : Directory) (name : String) : Option ByteArray := d.files.lookup name

/-- Follows the entries of a path from a place on. -/
def follow (d : Directory) (place : Place) : List String → Except PathFault Target
  | [] => .ok .directory
  | name :: rest =>
    if name == "." then d.follow place rest
    else if name == ".." then d.follow .outside rest
    else if 255 < name.utf8ByteSize then .error .tooLong
    else
      match if place = .here then d.file? name else none with
      | some bytes => if rest.isEmpty then .ok (.file name bytes) else .error .notDirectory
      | none => if rest.isEmpty then .ok (.free place name) else .error .notFound

/-- The entries of a path. -/
def entries (path : String) : List String := (path.splitOn "/").filter (· != "")

/-- What a path leads to. -/
def find (d : Directory) (path : String) : Except PathFault Target :=
  if 4096 ≤ path.utf8ByteSize then .error .tooLong
  else if path == "" then .error .notFound
  else if path.startsWith "/" then
    if entries path == ["dev", "null"] then .ok .null else d.follow .outside (entries path)
  else d.follow .here (entries path)

/-- What is found when a path is to be read.  What a slash follows has to be a directory. -/
def look (d : Directory) (path : String) : FileState :=
  match d.find path with
  | .ok .directory => .unreadable PathFault.isDirectory.message
  | .ok (.file _ bytes) =>
    if path.endsWith "/" then .absent PathFault.notDirectory.message else .content bytes
  | .ok .null =>
    if path.endsWith "/" then .absent PathFault.notDirectory.message else .content .empty
  | .ok (.free _ _) => .absent PathFault.notFound.message
  | .error fault => .absent fault.message

/-- Puts a file into the directory in place of one of the same name. -/
def insert (d : Directory) (name : String) (bytes : ByteArray) : Directory :=
  ⟨d.files.filter (·.1 != name) ++ [(name, bytes)]⟩

/-- Writes a file, or says why that cannot be done.  What is written outside is out of sight. -/
def write (d : Directory) (path : String) (bytes : ByteArray) : Except PathFault Directory :=
  match d.find path with
  | .ok .directory => .error .isDirectory
  | .ok (.file name _) =>
    if path.endsWith "/" then .error .isDirectory else .ok (d.insert name bytes)
  | .ok .null => if path.endsWith "/" then .error .isDirectory else .ok d
  | .ok (.free place name) =>
    if path.endsWith "/" then .error .isDirectory
    else .ok (if place = .here then d.insert name bytes else d)
  | .error fault => .error fault

/-- Runs a command line with some standard input. -/
def run (d : Directory) (standardInput : ByteArray) (arguments : List String) :
    Outcome × Directory :=
  let outcome := runArguments ⟨d.look, standardInput⟩ false arguments
  match outcome.written with
  | none => (outcome.finished none, d)
  | some (path, bytes) =>
    match d.write path bytes with
    | .ok d => (outcome.finished none, d)
    | .error fault => (outcome.finished (some fault.message), d)

/-- The names of the files in order. -/
def sortedNames (d : Directory) : List String := (d.files.map (·.1)).mergeSort fun a b => a ≤ b

end Directory

end IncrementalParsing
