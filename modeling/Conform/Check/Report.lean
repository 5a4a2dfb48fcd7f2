import Conform.Check.Sample
import Conform.Document
import Conform.Json.Printer

/-!
# Reports

What judging samples by a schema document comes to: a finding for every sample, in order. A sample conforms, or does not, or
the definition was at fault. The report tells the findings line by line with a sum at the end, or as a JSON list.
-/

namespace Conform

/-- What judging a sample came to. -/
structure Finding where
  label : String
  result : Except Defect Bool

namespace Finding

/-- Whether the sample conforms. -/
def isValid (f : Finding) : Bool :=
  match f.result with
  | .ok b => b
  | .error _ => false

/-- The text of the defect that was met, if one was. -/
def error? (f : Finding) : Option String :=
  match f.result with
  | .ok _ => none
  | .error d => some d.message

/-- What judging a sample by a schema document comes to. -/
def ofSample (document : SchemaDocument) (s : Sample) : Finding := ⟨s.label, (document.validate s.value).result⟩

end Finding

/-- The form of a report. -/
inductive ReportFormat where
  | text | json
  deriving DecidableEq, Repr

namespace Report

/-- How a piece of text stands out on a terminal. -/
inductive Emphasis where
  | red | green | yellow | bold
  deriving DecidableEq, Repr

/-- The number that turns an emphasis on. -/
def Emphasis.code : Emphasis → String
  | .red => "31"
  | .green => "32"
  | .yellow => "33"
  | .bold => "1"

/-- A piece of text that stands out, where a terminal is meant. -/
def emphasize (color : Bool) (e : Emphasis) (text : String) : String :=
  if color then s!"\x1b[{e.code}m{text}\x1b[0m" else text

/-- The line of a finding. -/
def line (color : Bool) (f : Finding) : String :=
  match f.result with
  | .error d => emphasize color .yellow "⚠" ++ s!" {f.label}: {d.message}"
  | .ok true => emphasize color .green "✅" ++ s!" {f.label}"
  | .ok false => emphasize color .red "❌" ++ s!" {f.label}"

/-- How many of the samples conform. -/
def summary (findings : List Finding) : String :=
  s!"{(findings.filter Finding.isValid).length}/{findings.length} documents conform"

/-- The report for people: a line for every finding, and the sum. -/
def text (color : Bool) (findings : List Finding) : String :=
  "\n".intercalate (findings.map (line color) ++ [emphasize color .bold (summary findings)])

/-- The entry of a finding. -/
def entry (f : Finding) : Json :=
  .object ([("document", .string f.label), ("valid", .bool f.isValid)] ++
    match f.error? with
    | none => []
    | some e => [("error", .string e)])

/-- The report as JSON: a list of entries. -/
def json (findings : List Finding) : String := (Json.array (findings.map entry)).pretty

/-- The report in a form. -/
def write (format : ReportFormat) (color : Bool) (findings : List Finding) : String :=
  match format with
  | .text => text color findings
  | .json => json findings

end Report

end Conform
