import Conform.Check
import Conform.Text.Numeral
import Conform.Token.Explanation

/-!
# The command line

There are two commands: `check` judges files, and `token` explains a text as a type token. Options have a long name behind two
dashes and some have a letter behind one; a value stands in the next argument, or behind an equals sign, or right behind the
letter. `--input` takes all arguments up to the next option. Behind `--` nothing is an option.

Arguments are read from left to right, and the first thing wrong ends the reading. An option is settled when the next one is met:
only then is it looked at whether it has its value, was given before, and has a value that can be used. What is missing altogether
is looked at last.
-/

namespace Conform

/-- What is shown to the user in place of running a command. -/
inductive Usage where
  | help | version | noCommand
  | unknownArgument | unknownCommand | invalidValue | notNumber | repeated | needlessValue | missing
  deriving DecidableEq, Repr

/-- Whether something was wrong with the command line. -/
def Usage.isError : Usage → Bool
  | .help => false
  | .version => false
  | _ => true

/-- What an argument looks like. -/
inductive Argument where
  | escape
  | long (name : String) (value : Option String)
  | short (letters : List Char)
  | plain (text : String)
  deriving DecidableEq, Repr

/-- Tells by its dashes what an argument looks like. A dash alone is plain. -/
def Argument.ofText (text : String) : Argument :=
  match text.toList with
  | ['-', '-'] => .escape
  | '-' :: '-' :: cs =>
    .long (String.ofList (cs.takeWhile (· ≠ '=')))
      (if cs.contains '=' then some (String.ofList ((cs.dropWhile (· ≠ '=')).drop 1)) else none)
  | '-' :: c :: cs => .short (c :: cs)
  | _ => .plain text

/-! ### Checking -/

/-- An option of the command that checks files. -/
inductive CheckOption where
  | help | lines | pointer | filter | input | schema | maxDepth | format | out
  deriving DecidableEq, Repr

namespace CheckOption

/-- The option with a long name. -/
def ofName? : String → Option CheckOption
  | "help" => some .help
  | "ndjson" => some .lines
  | "json-pointer" => some .pointer
  | "jq-expr" => some .filter
  | "input" => some .input
  | "schema" => some .schema
  | "max-depth" => some .maxDepth
  | "format" => some .format
  | "out" => some .out
  | _ => none

/-- The option with a letter. -/
def ofLetter? : Char → Option CheckOption
  | 'h' => some .help
  | 'i' => some .input
  | 's' => some .schema
  | 'o' => some .out
  | _ => none

/-- Whether an option has a value. -/
def takesValue : CheckOption → Bool
  | .help => false
  | .lines => false
  | _ => true

/-- Whether an option takes another value after so many. -/
def takesMore (o : CheckOption) (taken : Nat) : Bool := o = .input || taken = 0

end CheckOption

/-- The options that have been settled, and the one that was met last with the values it has so far. -/
structure CheckDraft where
  schema : Option String := none
  inputs : List String := []
  lines : Bool := false
  pointer : Option String := none
  filter : Option String := none
  maxDepth : Option Nat := none
  format : Option ReportFormat := none
  out : Option String := none
  pending : Option (CheckOption × List String) := none

namespace CheckDraft

/-- Gives an option for the first time. -/
def once {α : Type} (old : Option α) (value : Except Usage α) : Except Usage (Option α) :=
  match old with
  | some _ => .error .repeated
  | none => value.map some

/-- A path, which is not empty. -/
def path? (text : String) : Except Usage String := if text.isEmpty then .error .invalidValue else .ok text

/-- The form of a report that a text names. -/
def format? : String → Except Usage ReportFormat
  | "text" => .ok .text
  | "json" => .ok .json
  | _ => .error .invalidValue

/-- A limit of depth. -/
def limit? (text : String) : Except Usage Nat :=
  match Numeral.natural? text with
  | none => .error .notNumber
  | some n => .ok n

/-- Settles an option with its values. -/
def give (d : CheckDraft) (o : CheckOption) (values : List String) : Except Usage CheckDraft :=
  match o, values with
  | .help, _ => .error .help
  | .lines, _ => if d.lines then .error .repeated else .ok { d with lines := true }
  | _, [] => .error .invalidValue
  | .input, texts => .ok { d with inputs := d.inputs ++ texts }
  | .pointer, text :: _ => (once d.pointer (.ok text)).map fun x => { d with pointer := x }
  | .filter, text :: _ => (once d.filter (.ok text)).map fun x => { d with filter := x }
  | .schema, text :: _ => (once d.schema (path? text)).map fun x => { d with schema := x }
  | .maxDepth, text :: _ => (once d.maxDepth (limit? text)).map fun x => { d with maxDepth := x }
  | .format, text :: _ => (once d.format (format? text)).map fun x => { d with format := x }
  | .out, text :: _ => (once d.out (path? text)).map fun x => { d with out := x }

/-- Settles the option that was met last. -/
def settle (d : CheckDraft) : Except Usage CheckDraft :=
  match d.pending with
  | none => .ok d
  | some (o, values) => give { d with pending := none } o values

/-- Meets an option. One that has a value waits for it unless it is given here. -/
def meet (d : CheckDraft) (o : CheckOption) (value : Option String) : Except Usage CheckDraft :=
  match o.takesValue, value with
  | false, some _ => .error .needlessValue
  | true, none => d.settle.map fun d => { d with pending := some (o, []) }
  | _, value => d.settle.bind fun d => d.give o value.toList

/-- Meets the options of a row of letters. What follows the letter of an option that has a value is the value. -/
def meetLetters (d : CheckDraft) : List Char → Except Usage CheckDraft
  | [] => .ok d
  | c :: cs =>
    match CheckOption.ofLetter? c with
    | none => .error .unknownArgument
    | some o =>
      if o.takesValue then
        match cs with
        | [] => d.meet o none
        | '=' :: value => d.meet o (some (String.ofList value))
        | value => d.meet o (some (String.ofList value))
      else (d.meet o none).bind fun d => d.meetLetters cs

/-- Takes an argument that is no option: a value of the option that was met last. -/
def take (d : CheckDraft) (text : String) : Except Usage CheckDraft :=
  match d.pending with
  | none => .error .unknownArgument
  | some (o, values) =>
    if o.takesMore values.length then .ok { d with pending := some (o, values ++ [text]) } else .error .unknownArgument

/-- Reads arguments. -/
def read (d : CheckDraft) : List String → Except Usage CheckDraft
  | [] => d.settle
  | text :: texts =>
    match Argument.ofText text with
    | .escape => if texts.isEmpty then d.settle else .error .unknownArgument
    | .plain text => (d.take text).bind fun d => d.read texts
    | .short letters => (d.meetLetters letters).bind fun d => d.read texts
    | .long name value =>
      match CheckOption.ofName? name with
      | none => .error .unknownArgument
      | some o => (d.meet o value).bind fun d => d.read texts

/-- The check that the settled options describe: it has a schema document and inputs. -/
def check? (d : CheckDraft) : Except Usage Check :=
  match d.schema, d.inputs with
  | some schema, input :: inputs =>
    .ok ⟨schema, input :: inputs, ⟨d.lines, d.pointer, d.filter⟩, d.maxDepth, d.format.getD .text, d.out⟩
  | _, _ => .error .missing

end CheckDraft

/-! ### Explaining -/

/-- The one text among plain arguments. -/
def onlyText? : List String → Except Usage String
  | [] => .error .missing
  | [text] => .ok text
  | _ => .error .unknownArgument

/-- Reads the arguments of the command that explains a token, given the text if it has been met. -/
def readTokenArguments (seen : Option String) : List String → Except Usage String
  | [] => onlyText? seen.toList
  | text :: texts =>
    match Argument.ofText text with
    | .escape => onlyText? (seen.toList ++ texts)
    | .plain text => if seen.isSome then .error .unknownArgument else readTokenArguments (some text) texts
    | .long "help" value => .error (if value.isSome then .needlessValue else .help)
    | .short ('h' :: _) => .error .help
    | _ => .error .unknownArgument

/-! ### Commands -/

/-- A command. -/
inductive Command where
  | check (c : Check)
  | token (text : String)
  deriving DecidableEq, Repr

namespace Command

/-- The names of commands, that of the one that shows help included. -/
def names : List String := ["check", "token", "help"]

/-- What is shown when help is asked for on a row of names: there are no commands below others. -/
def helpOn : List String → Usage
  | [] => .help
  | [name] => if names.contains name then .help else .unknownCommand
  | _ => .unknownCommand

/-- Reads a command line. -/
def parse? : List String → Except Usage Command
  | [] => .error .noCommand
  | text :: texts =>
    match Argument.ofText text with
    | .plain "check" => ((CheckDraft.read {} texts).bind CheckDraft.check?).map .check
    | .plain "token" => (readTokenArguments none texts).map .token
    | .plain "help" => .error (helpOn texts)
    | .plain _ => .error .unknownCommand
    | .escape =>
      match texts with
      | [] => .error .noCommand
      | name :: _ => .error (if names.contains name then .unknownArgument else .unknownCommand)
    | .long "help" value => .error (if value.isSome then .needlessValue else .help)
    | .long "version" value => .error (if value.isSome then .needlessValue else .version)
    | .short ('h' :: _) => .error .help
    | .short ('V' :: _) => .error .version
    | _ => .error .unknownArgument

/-- Runs a command. -/
def run {m n : Type → Type} [Monad m] [Monad n] [MonadLiftT m n] (engine : Filter.Engine) (reader : FileReader m)
    (writer : FileWriter n) (color : Bool) : Command → n Reply
  | .check c => c.run engine reader writer color
  | .token text => pure ⟨TypeToken.explain text ++ "\n", none, true⟩

end Command

end Conform
