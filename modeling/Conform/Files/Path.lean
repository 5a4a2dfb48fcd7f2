import Conform.Text.Split

/-!
# Paths

A path is a text: names with slashes between them. One that begins with a slash leads from the root, any other one from the
directory where the reader stands. The name `.` stands for a directory itself and `..` for the one that holds it; neither is
resolved here, since where `..` leads depends on what exists.
-/

namespace Conform.Path

/-- Whether a path leads from the root. -/
def isAbsolute (path : String) : Bool := path.toList.head? == some '/'

/-- Whether a path ends in a slash, as one does that asks for a directory. -/
def endsInSlash (path : String) : Bool := path.toList.getLast? == some '/'

/-- The names of a path. Slashes side by side count as one. -/
def names (path : String) : List String :=
  ((Split.parts '/' path.toList).filter fun part => !part.isEmpty).map String.ofList

/-- The names of a path but for the dots, of which only one that a relative path begins with stays. -/
def steps (path : String) : List String :=
  match isAbsolute path, names path with
  | false, "." :: rest => "." :: rest.filter (· ≠ ".")
  | _, all => all.filter (· ≠ ".")

/-- Whether a path is the directory where the reader stands, spelled as a dot. -/
def isHere (path : String) : Bool := steps path == ["."]

/-- The path without its last step. None when it has no steps. -/
def parent? (path : String) : Option String :=
  if (steps path).isEmpty then none
  else some ((if isAbsolute path then "/" else "") ++ "/".intercalate (steps path).dropLast)

/-- The path to what has a name in the directory that a path leads to. -/
def join (path name : String) : String := if endsInSlash path then path ++ name else path ++ "/" ++ name

end Conform.Path
