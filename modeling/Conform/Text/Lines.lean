/-!
# Lines of a text

A line ends at a line feed, with or without a carriage return in front of it; what follows the last line feed is a line unless it
is empty.
-/

namespace Conform.Lines

/-- A line without its ending: one carriage return at its end belongs to the line feed. -/
def chomp (line : List Char) : List Char :=
  if line.getLast? = some '\r' then line.dropLast else line

/-- The lines of a text, given the characters of the current line that have been read, last one first. -/
def splitFrom (current : List Char) : List Char → List (List Char)
  | [] => if current.isEmpty then [] else [current.reverse]
  | '\n' :: rest => chomp current.reverse :: splitFrom [] rest
  | c :: rest => splitFrom (c :: current) rest

/-- The lines of a text. -/
def split (text : List Char) : List (List Char) := splitFrom [] text

end Conform.Lines
