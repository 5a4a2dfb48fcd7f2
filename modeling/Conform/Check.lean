import Conform.Check.Report
import Conform.Files.Search

/-!
# Checking files

Judges the samples in files by a schema document, and reports. Everything that is needed is read first: the schema document,
then the paths of all inputs, then the files. Whatever goes wrong while that is done, nothing has been written, since only a
reader was at hand. Then the report goes into a file, for which directories are created, or to the output.
-/

namespace Conform

/-- What is to be checked, by what, and where the report goes. -/
structure Check where
  schema : String
  inputs : List String
  selection : Selection := {}
  maxDepth : Option Nat := none
  format : ReportFormat := .text
  out : Option String := none
  deriving DecidableEq, Repr

/-- Why a check comes to nothing. -/
inductive CheckError where
  | schemaUnreadable (path : String) (e : FileError)
  | schemaInvalid (path : String) (e : PathError)
  | unresolved (e : SearchError)
  | unsampled (e : SampleError)
  | noDirectory (e : FileError)
  | unwritten (path : String) (e : FileError)

/-- The text of an error, with what caused it. -/
def CheckError.message : CheckError → String
  | .schemaUnreadable path e => s!"failed to read schema file ({path}): {e.message}"
  | .schemaInvalid path e => s!"invalid schema file ({path}): {e.message}"
  | .unresolved e => s!"failed to resolve input file paths: {e.message}"
  | .unsampled e => e.message
  | .noDirectory e => e.message
  | .unwritten path e => s!"failed to write report ({path}): {e.message}"

/-- What a command leaves behind: its output, and an error if it failed. It succeeds when there is no error and, where samples
were checked, all of them conform. -/
structure Reply where
  output : String
  error : Option CheckError := none
  succeeds : Bool

/-- The schema document with another limit of depth, if one is given. -/
def SchemaDocument.limited (document : SchemaDocument) (maxDepth : Option Nat) : SchemaDocument :=
  match maxDepth with
  | none => document
  | some n => { document with options := { document.options with maxDepth := some n } }

namespace Check

variable {m n : Type → Type} [Monad m] [Monad n]

/-- The schema document in a file. -/
def schemaDocument? (c : Check) (source : Except FileError String) : Except CheckError SchemaDocument :=
  match source with
  | .error e => .error (.schemaUnreadable c.schema e)
  | .ok text => ((SchemaDocument.parse? text).mapError (.schemaInvalid c.schema)).map fun d => d.limited c.maxDepth

/-- What judging the samples in files comes to, given what came of reading the files. -/
def judge (engine : Filter.Engine) (c : Check) (document : SchemaDocument) (sources : List (String × Except FileError String)) :
    Except CheckError (List Finding) :=
  ((Sample.ofSources? engine c.selection sources).map fun samples => samples.map (Finding.ofSample document)).mapError .unsampled

/-- Reads files, one after the other. -/
def readSources (reader : FileReader m) : List String → m (List (String × Except FileError String))
  | [] => pure []
  | path :: paths => do
    let source ← reader.text path
    pure ((path, source) :: (← readSources reader paths))

/-- Reads everything and judges all samples. -/
def findings (engine : Filter.Engine) (reader : FileReader m) (c : Check) : m (Except CheckError (List Finding)) := do
  match c.schemaDocument? (← reader.text c.schema) with
  | .error e => pure (.error e)
  | .ok document =>
    match ← Search.inputs reader c.inputs with
    | .error e => pure (.error (.unresolved e))
    | .ok paths => pure (c.judge engine document (← readSources reader paths))

/-- Puts a report where it is to go. Gives what is left for the output. -/
def deliver (writer : FileWriter n) (c : Check) (report : String) : n (Except CheckError String) :=
  match c.out with
  | none => pure (.ok (report ++ "\n"))
  | some out => do
    match ← (Path.parent? out).elim (pure (.ok ())) writer.createDirectories with
    | .error e => pure (.error (.noDirectory e))
    | .ok _ => pure (((← writer.write out report).mapError (.unwritten out)).map fun _ => "")

/-- Runs a check. -/
def run [MonadLiftT m n] (engine : Filter.Engine) (reader : FileReader m) (writer : FileWriter n) (color : Bool) (c : Check) :
    n Reply := do
  match ← liftM (findings engine reader c) with
  | .error e => pure ⟨"", some e, false⟩
  | .ok found =>
    match ← deliver writer c (Report.write c.format color found) with
    | .error e => pure ⟨"", some e, false⟩
    | .ok output => pure ⟨output, none, found.all Finding.isValid⟩

end Check

end Conform
