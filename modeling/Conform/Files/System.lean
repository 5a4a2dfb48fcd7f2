import Conform.Files.Path

/-!
# File systems

What a program may ask of a file system, and what may go wrong. Reading and writing are apart, so that a computation which is
only given a reader cannot change anything. The monad is the file system's own: the real one works in `IO`, and one whose state is kept
as a value, such as a tree of files, works in pure functions.
-/

namespace Conform

/-- Why a file system refuses. -/
inductive FileError where
  | notFound | alreadyExists | notDirectory | isDirectory | nameTooLong
  | nulByte
  | notText
  | other (description : String)
  deriving DecidableEq, Repr

/-- The text of a refusal: what the system calls it, and its number. -/
def FileError.message : FileError → String
  | .notFound => "No such file or directory (os error 2)"
  | .alreadyExists => "File exists (os error 17)"
  | .notDirectory => "Not a directory (os error 20)"
  | .isDirectory => "Is a directory (os error 21)"
  | .nameTooLong => "File name too long (os error 36)"
  | .nulByte => "file name contained an unexpected NUL byte"
  | .notText => "stream did not contain valid UTF-8"
  | .other description => description

/-- How files are read: the text of a file, the names in a directory, and what stands at a path. -/
structure FileReader (m : Type → Type) where
  text : String → m (Except FileError String)
  names : String → m (Except FileError (List String))
  isDirectory : String → m Bool
  isPresent : String → m Bool

/-- How files are written: a whole file at once, and one new directory in a directory. -/
structure FileWriter (m : Type → Type) where
  write : String → String → m (Except FileError Unit)
  createDirectory : String → m (Except FileError Unit)
  isDirectory : String → m Bool

/-- What only reads a state leaves it as it is. -/
instance readerLift {σ : Type} : MonadLift (ReaderM σ) (StateM σ) := ⟨fun read s => (read s, s)⟩

namespace FileWriter

variable {m : Type → Type} [Monad m]

/-- What is to be said of a directory that was to be created: that it is there already is no refusal. -/
def settle (writer : FileWriter m) (path : String) : Except FileError Unit → m (Except FileError Unit)
  | .ok _ => pure (.ok ())
  | .error e => do pure (if ← writer.isDirectory path then .ok () else .error e)

/-- Creates a directory and those on the way to it, of which there are fewer than the given number. -/
def createDirectoriesWithin (writer : FileWriter m) : Nat → String → m (Except FileError Unit)
  | 0, _ => pure (.error .notFound)
  | fuel + 1, path =>
    if path.isEmpty then pure (.ok ())
    else do
      match ← writer.createDirectory path with
      | .error .notFound =>
        match Path.parent? path with
        | none => pure (.error .notFound)
        | some parent =>
          match ← writer.createDirectoriesWithin fuel parent with
          | .error e => pure (.error e)
          | .ok _ => writer.settle path (← writer.createDirectory path)
      | result => writer.settle path result

/-- Creates a directory and those on the way to it. -/
def createDirectories (writer : FileWriter m) (path : String) : m (Except FileError Unit) :=
  writer.createDirectoriesWithin ((Path.steps path).length + 1) path

end FileWriter

end Conform
