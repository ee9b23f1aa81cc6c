/-!
# StackScript.Folder — files by their paths

The program reads files through a `Reader`, which says for a path what is there or why nothing can
be read.  A `Folder` is a reader that knows all its files: a path is followed name by name, and the
first name that leads nowhere decides the error.
-/

namespace StackScript

/-- Why a file could not be read. -/
inductive ReadError where
  | missing
  | notDirectory
  | directory
  | nameTooLong
  /-- the path holds a character that no path can hold -/
  | badPath
  | other (text : String)
deriving DecidableEq, Repr, Inhabited

namespace ReadError

/-- The errors that the system tells by number. -/
def numbered : List (Nat × ReadError) :=
  [(2, missing), (20, notDirectory), (21, directory), (36, nameTooLong)]

/-- What is said of an error, without its number. -/
def reason : ReadError → String
  | missing => "No such file or directory"
  | notDirectory => "Not a directory"
  | directory => "Is a directory"
  | nameTooLong => "File name too long"
  | badPath => "file name contained an unexpected NUL byte"
  | other text => text

/-- The message of an error. -/
def message (e : ReadError) : String :=
  match numbered.find? fun n => n.2 = e with
  | some (number, _) => e.reason ++ " (os error " ++ toString number ++ ")"
  | none => e.reason

end ReadError

/-- Reads a file by its path. -/
abbrev Reader := String → Except ReadError String

/-- A folder that holds only these files, each by the names that lead to it. -/
structure Folder where
  files : List (List String × String)
deriving Inhabited

namespace Folder

/-- Where a path leads. -/
inductive Place where
  /-- the folder, or one within it -/
  | inside (path : List String)
  /-- a folder around it, of which nothing is known -/
  | outside
  | file (content : String)
deriving DecidableEq, Repr, Inhabited

/-- Bytes in a name, at most. -/
def nameLimit : Nat := 255

/-- Bytes in a path, at most. -/
def pathLimit : Nat := 4095

/-- Some file lies deeper on the path. -/
def isFolder (f : Folder) (path : List String) : Bool :=
  f.files.any fun entry => path.isPrefixOf entry.1

/-- Where a name leads that is none of the names of folders themselves. -/
def enter (f : Folder) (path : List String) (name : String) : Except ReadError Place :=
  if nameLimit < name.utf8ByteSize then .error .nameTooLong
  else
    let path := path ++ [name]
    match f.files.lookup path with
    | some content => .ok (.file content)
    | none => if f.isFolder path then .ok (.inside path) else .error .missing

/-- Follows a path by one name. -/
def follow (f : Folder) (place : Place) (name : String) : Except ReadError Place :=
  match place with
  | .file _ => .error .notDirectory
  | .outside =>
    if name = "" ∨ name = "." ∨ name = ".." then .ok .outside
    else if nameLimit < name.utf8ByteSize then .error .nameTooLong
    else .error .missing
  | .inside path =>
    if name = "" ∨ name = "." then .ok place
    else if name = ".." then .ok (if path.isEmpty then .outside else .inside path.dropLast)
    else f.enter path name

/-- Follows a whole path. -/
def find (f : Folder) (path : String) : Except ReadError Place :=
  let start : Place := if path.startsWith "/" then .outside else .inside []
  (path.splitOn "/").foldlM f.follow start

/-- Reads a file. -/
def read (f : Folder) : Reader := fun path =>
  if path.toList.contains '\x00' then .error .badPath
  else if path.isEmpty then .error .missing
  else if pathLimit < path.utf8ByteSize then .error .nameTooLong
  else
    match f.find path with
    | .ok (.file content) => .ok content
    | .ok _ => .error .directory
    | .error e => .error e

end Folder

end StackScript
