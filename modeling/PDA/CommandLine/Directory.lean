import PDA.Format.File

/-!
# Directories in memory

A directory and the files in it, as far as reading goes, so that the command line can be run without
a disk. A path is followed name by name from the directory on, and every name has to lead somewhere:
a detour through a directory that does not exist leads nowhere, even if the next name leads back.
-/

namespace PDA.CommandLine

open Format

/-- A directory. The directories in it are those that its files lie in. -/
structure Directory where
  /-- The files, each with the names that lead to it and its text. -/
  files : List (List String × String)

/-- Where a path has led so far. -/
inductive Place
  /-- To a directory, given by the names that lead to it. -/
  | directory (names : List String)
  /-- To a file with the given text. -/
  | file (text : String)
  /-- Out of the directory, to places of which nothing is known but that they are directories. -/
  | outside

/-- The names that a path consists of, in order. -/
def pathNames (path : String) : List String := (path.toList.splitOn '/').map String.ofList

/-- The largest number of bytes of a name. -/
def maxNameLength : Nat := 255

/-- The largest number of bytes of a path. -/
def maxPathLength : Nat := 4095

namespace Directory

/-- The directory with the given files, each with its path and its text. -/
def ofFiles (files : List (String × String)) : Directory where
  files := files.map fun (path, text) => ((pathNames path).filter (· ∉ ["", "."]), text)

/-- What is found under the given names. -/
def find (D : Directory) (names : List String) : Except ReadError Place :=
  match D.files.lookup names with
  | some text => .ok (.file text)
  | none =>
    if D.files.any fun (path, _) => names.isPrefixOf path then .ok (.directory names)
    else .error .notFound

/-- Follow one name from a place. -/
def follow (D : Directory) : Place → String → Except ReadError Place
  | .file _, _ => .error .notDirectory
  | place, "" | place, "." => .ok place
  | .outside, ".." | .directory [], ".." => .ok .outside
  | .directory names, ".." => .ok (.directory names.dropLast)
  | place, name =>
    if maxNameLength < name.utf8ByteSize then .error .nameTooLong
    else
      match place with
      | .directory names => D.find (names ++ [name])
      | _ => .error .notFound

/-- Where a path begins: an absolute one outside. -/
def origin (path : String) : Place :=
  if path.startsWith "/" then .outside else .directory []

/-- The text of the file at a path. -/
def read (D : Directory) (path : String) : Except ReadError String :=
  if path.isEmpty then .error .notFound
  else if maxPathLength < path.utf8ByteSize then .error .nameTooLong
  else
    match (pathNames path).foldlM D.follow (origin path) with
    | .ok (.file text) => .ok text
    | .ok _ => .error .isDirectory
    | .error reason => .error reason

end Directory

end PDA.CommandLine
