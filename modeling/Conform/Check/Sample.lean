import Conform.Files.System
import Conform.Filter.Run
import Conform.Json.Pointer
import Conform.Json.Reader
import Conform.Text.Blank
import Conform.Text.Lines

/-!
# Samples

The values that are checked, each with a label that says where it was found. A file holds one JSON text, or one on every line
that is not blank. Of each text the node under a pointer is taken, and a filter may then make any number of samples of it.
The label is the path of the file, behind a colon the number of the line, and behind a hash sign the number of the output of
the filter.

Files are read before anything is selected, and the first failure ends it all: a sample is never left out.
-/

namespace Conform

/-- A value to be checked. -/
structure Sample where
  label : String
  value : Json

/-- What is taken of every file. -/
structure Selection where
  lines : Bool := false
  pointer : Option String := none
  filter : Option String := none
  deriving DecidableEq, Repr

/-- Why there are no samples. -/
inductive SampleError where
  | unreadable (path : String) (e : FileError)
  | notJson (path : String) (e : Json.ReadError)
  | lineNotJson (path : String) (line : Nat) (e : Json.ReadError)
  | nothingSelected (pointer label : String)
  | filterFailed (label : String) (e : Filter.RunError)

/-- The text of an error. -/
def SampleError.message : SampleError → String
  | .unreadable path e => s!"failed to read source file ({path}): {e.message}"
  | .notJson path e => s!"failed to parse JSON source file ({path}): {e.message}"
  | .lineNotJson path line e => s!"failed to parse NDJSON line ({path}:{line}): {e.message}"
  | .nothingSelected pointer label => s!"JSON pointer {pointer} selects nothing in {label}"
  | .filterFailed label e => s!"failed to apply jq expression to {label}: {e.message}"

namespace Sample

/-- The text in a file as a sample. -/
def ofText? (path text : String) : Except SampleError Sample :=
  ((Json.parse? text).map (Sample.mk path)).mapError (.notJson path)

/-- A line of a file as a sample, given its number. -/
def ofLine? (path : String) (line : List Char × Nat) : Except SampleError Sample :=
  ((Json.parse? (String.ofList line.1)).map (Sample.mk s!"{path}:{line.2}")).mapError (.lineNotJson path line.2)

/-- The lines of a text that are not blank, each with its number; the first line has number one. -/
def lines (text : String) : List (List Char × Nat) :=
  ((Lines.split text.toList).zipIdx 1).filter fun line => !Blank.isBlank line.1

/-- The samples in a file, before anything is selected. -/
def ofFile? (byLine : Bool) (path text : String) : Except SampleError (List Sample) :=
  if byLine then (lines text).mapM (ofLine? path) else (ofText? path text).map fun s => [s]

/-- The node of a sample under a pointer, if there is a pointer. -/
def point? (pointer : Option String) (s : Sample) : Except SampleError Sample :=
  match pointer with
  | none => .ok s
  | some p =>
    match Pointer.select? p s.value with
    | none => .error (.nothingSelected p s.label)
    | some node => .ok { s with value := node }

/-- The samples that a filter makes of a sample, if there is a filter. -/
def filter? (engine : Filter.Engine) (filter : Option String) (s : Sample) : Except SampleError (List Sample) :=
  match filter with
  | none => .ok [s]
  | some f =>
    match Filter.run? engine f s.value with
    | .error e => .error (.filterFailed s.label e)
    | .ok outputs => .ok (outputs.zipIdx.map fun output => ⟨s!"{s.label}#{output.2}", output.1⟩)

/-- What is selected of a sample. -/
def select? (engine : Filter.Engine) (selection : Selection) (s : Sample) : Except SampleError (List Sample) :=
  match point? selection.pointer s with
  | .error e => .error e
  | .ok node => filter? engine selection.filter node

/-- What is selected of a file, given what came of reading it. -/
def ofSource? (engine : Filter.Engine) (selection : Selection) (source : String × Except FileError String) :
    Except SampleError (List Sample) :=
  match source.2 with
  | .error e => .error (.unreadable source.1 e)
  | .ok text =>
    match ofFile? selection.lines source.1 text with
    | .error e => .error e
    | .ok samples => (samples.mapM (select? engine selection)).map List.flatten

/-- What is selected of files, one after the other. -/
def ofSources? (engine : Filter.Engine) (selection : Selection) (sources : List (String × Except FileError String)) :
    Except SampleError (List Sample) :=
  (sources.mapM (ofSource? engine selection)).map List.flatten

end Sample

end Conform
