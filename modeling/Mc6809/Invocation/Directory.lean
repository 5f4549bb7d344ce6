/-
A directory of files. It is what a command needs to know of the place where it
is carried out: a path leads to a file or to the reason why there is none.
-/
import Mc6809.Invocation.Event
import Mc6809.Text.Blank

namespace Mc6809

/-- Files under their paths. The directories that the paths go through are
there as well. -/
structure Directory where
  files : List (String × ByteArray)

namespace Directory

/-- The most bytes a name may have. -/
def nameLimit : Nat := 255

/-- The most bytes a path may have. -/
def pathLimit : Nat := 4095

/-- The names that a path goes through; `/` at the start or the end and twice
in a row adds none. -/
def names (path : String) : List String :=
  ((Text.pieces '/' path.toList).filter (!·.isEmpty)).map String.ofList

/-- What is at a place: the contents of a file, or nothing for a directory. -/
def at? (d : Directory) (place : List String) : Option (Option ByteArray) :=
  match d.files.find? fun (path, _) => names path == place with
  | some (_, contents) => some (some contents)
  | none =>
    if place.isEmpty || d.files.any fun (path, _) => place.isPrefixOf (names path) then some none
    else none

/-- Follows names from a place that is a directory. What lies above the
directory is not known, so leaving it leads back to it. -/
def follow (d : Directory) (place : List String) : List String → Except FileError ByteArray
  | [] => .error .isDirectory
  | "." :: rest => d.follow place rest
  | ".." :: rest => d.follow place.dropLast rest
  | name :: rest =>
    if nameLimit < name.utf8ByteSize then .error .nameTooLong
    else
      match d.at? (place ++ [name]) with
      | none => .error .notFound
      | some none => d.follow (place ++ [name]) rest
      | some (some contents) => if rest.isEmpty then .ok contents else .error .notADirectory

/-- The contents of the file at a path. -/
def read (d : Directory) (path : String) : Except FileError ByteArray :=
  if path.isEmpty then .error .notFound
  else if pathLimit < path.utf8ByteSize then .error .nameTooLong
  else if path.toList.head? = some '/' then
    if (names path).all (· == ".") then .error .isDirectory else .error .notFound
  else
    match d.follow [] (names path), path.toList.getLast? with
    | .ok _, some '/' => .error .notADirectory
    | outcome, _ => outcome

end Directory

end Mc6809
