import Conform.CommandLine
import Conform.Filter.Fragment

/-!
# The program

Hands the arguments, the files of the system, the terminal and an engine for filters to `Command.run`, and prints what comes of it.
-/

namespace Conform.Program

/-- The code and the description that the system gives an error. -/
def systemError? : IO.Error → Option (UInt32 × String)
  | .alreadyExists _ code details => some (code, details)
  | .noFileOrDirectory _ code details => some (code, details)
  | .inappropriateType _ code details => some (code, details)
  | .invalidArgument _ code details => some (code, details)
  | .permissionDenied _ code details => some (code, details)
  | .resourceExhausted _ code details => some (code, details)
  | .noSuchThing _ code details => some (code, details)
  | .resourceBusy code details => some (code, details)
  | .illegalOperation code details => some (code, details)
  | .otherError code details => some (code, details)
  | _ => none

/-- The number of an error: some functions of the system give it with a minus sign. -/
def errorNumber (code : UInt32) : Nat := (if code < 0x80000000 then code else -code).toNat

/-- What an error of the system is called. -/
def fileError (e : IO.Error) : FileError :=
  match systemError? e with
  | none => .other e.toString
  | some (code, details) =>
    match errorNumber code with
    | 2 => .notFound
    | 17 => .alreadyExists
    | 20 => .notDirectory
    | 21 => .isDirectory
    | 36 => .nameTooLong
    | number => .other s!"{details} (os error {number})"

/-- Runs an action that may be refused. -/
def attempt {α : Type} (action : IO α) : IO (Except FileError α) := do
  try pure (.ok (← action)) catch e => pure (.error (fileError e))

/-- Reading the files of the system. -/
def reader : FileReader IO where
  text path := do
    match ← attempt (IO.FS.readBinFile path) with
    | .error e => pure (.error e)
    | .ok content => pure ((String.fromUTF8? content).elim (.error .notText) .ok)
  names path := do
    match ← attempt ((← IO.currentDir) / path).readDir with
    | .error e => pure (.error e)
    | .ok entries => pure (.ok (entries.toList.map fun e => e.fileName))
  isDirectory path := do ((← IO.currentDir) / path).isDir
  isPresent path := do if path.isEmpty then pure false else ((← IO.currentDir) / path).pathExists

/-- Writing the files of the system. -/
def writer : FileWriter IO where
  write path text := attempt (IO.FS.writeFile path text)
  createDirectory path := attempt (IO.FS.createDir path)
  isDirectory path := do ((← IO.currentDir) / path).isDir

/-- How the program is used. -/
def usage : String := "\n".intercalate
  ["Usage: conform check --schema PATH --input TEXT.. [--ndjson] [--json-pointer P] [--jq-expr E] [--max-depth N]",
    "                     [--format text|json] [--out PATH]",
    "       conform token TEXT"]

/-- Why the usage is shown. -/
def notice : Usage → String
  | .help => "checks JSON documents against a structural type definition"
  | .version => "conform 0.1.0"
  | .noCommand => "a command is needed"
  | .unknownArgument => "unexpected argument"
  | .unknownCommand => "unrecognized command"
  | .invalidValue => "invalid value for an option"
  | .notNumber => "the limit of depth is not a number"
  | .repeated => "an option is given more than once"
  | .needlessValue => "a value for an option that has none"
  | .missing => "a required argument is missing"

/-- Whether the output is a terminal that should show colors. -/
def wantsColor : IO Bool := do
  if ← (← IO.getStdout).isTty then pure (← IO.getEnv "NO_COLOR").isNone else pure false

/-- Runs the command line. The exit code is two where it cannot be read, and one where the command does not succeed. -/
def run (arguments : List String) : IO UInt32 := do
  match Command.parse? arguments with
  | .error .version =>
    IO.println (notice .version)
    pure 0
  | .error .help =>
    IO.println (notice .help ++ "\n\n" ++ usage)
    pure 0
  | .error u =>
    IO.eprintln ("error: " ++ notice u ++ "\n\n" ++ usage)
    pure 2
  | .ok command =>
    let reply ← command.run Filter.fragment reader writer (← wantsColor)
    IO.print reply.output
    match reply.error with
    | some e => IO.eprintln ("error: " ++ e.message)
    | none => pure ()
    pure (if reply.succeeds then 0 else 1)

end Conform.Program

/-- The entry of the program. -/
def main (arguments : List String) : IO UInt32 := Conform.Program.run arguments
