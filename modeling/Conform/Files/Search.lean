import Conform.Files.Glob
import Conform.Files.System

/-!
# Finding files

The paths that a pattern stands for, in order: directories are read name by name in the order of their bytes, and what is found
below a name stands where the name does. A name without wildcards is looked up and not searched for. Where the reader stands is
left out of the paths, unless the pattern names it. A directory that cannot be read ends the search; what is no directory has nothing
below it.

The search goes down one name at a time and no path is longer than `Search.deepest` names, so that is how deep it is followed.
-/

namespace Conform

/-- Why no paths are found. -/
inductive SearchError where
  | pattern (e : GlobError)
  | unreadable (path : String) (e : FileError)
  | noMatch (text : String)
  deriving DecidableEq, Repr

/-- The text of an error. -/
def SearchError.message : SearchError → String
  | .pattern e => e.message
  | .unreadable path e => s!"attempting to read `{path}` resulted in an error: {e.message}"
  | .noMatch text => s!"glob pattern matched no files: {text}"

namespace Search

variable {m : Type → Type} [Monad m]

/-- How many directories deep a path can lead. -/
def deepest : Nat := 4096

/-- The path to what has a name in a directory; what lies where the reader stands goes by its name alone. -/
def child (path name : String) : String := if Path.isHere path then name else Path.join path name

/-- The names for a directory itself and for the one that holds it, as far as a pattern that begins with a dot accepts them. No
other pattern is asked. -/
def dots (name : List GlobPart) : List String :=
  if name.head? = some (.char '.') then ["..", "."].filter fun dot => GlobPart.accepts name dot.toList else []

/-- The names in a directory, in the order of their bytes. -/
def entries (reader : FileReader m) (path : String) : ExceptT SearchError m (List String) := do
  match ← reader.names path with
  | .error e => throw (.unreadable path e)
  | .ok names => pure (names.mergeSort (· ≤ ·))

/-- Runs a search from each of several places and joins what they find. -/
def each {α : Type} (places : List α) (search : α → ExceptT SearchError m (List String)) : ExceptT SearchError m (List String) :=
  places.foldlM (fun found place => do pure (found ++ (← search place))) []

mutual

/-- The paths below a directory that a row of names stands for. With no names left that is the path itself. -/
def below (reader : FileReader m) (directoriesOnly : Bool) :
    Nat → List (List GlobPart) → String → ExceptT SearchError m (List String)
  | _, [], path => do
    if directoriesOnly then pure (if ← reader.isDirectory path then [path] else [])
    else pure [path]
  | 0, _, _ => pure []
  | fuel + 1, name :: rest, path =>
    match GlobPart.literal? name with
    | some text => do
      let next := child path text
      let found ← if text = "." ∨ text = ".." then reader.isDirectory path else reader.isPresent next
      if found then below reader directoriesOnly fuel rest next else pure []
    | none => do
      if ← reader.isDirectory path then
        let names ← entries reader path
        let dotted ← each (dots name) fun dot => below reader directoriesOnly fuel rest (Path.join path dot)
        let found ← each names fun entry => atEntry reader directoriesOnly fuel name rest (child path entry) entry
        pure (dotted ++ found)
      else pure []

/-- The paths at an entry of a directory and below it that a name and those after it stand for. A name that stands for any depth
also stands for none, and so for every directory that it reaches. -/
def atEntry (reader : FileReader m) (directoriesOnly : Bool) :
    Nat → List GlobPart → List (List GlobPart) → String → String → ExceptT SearchError m (List String)
  | 0, _, _, _, _ => pure []
  | fuel + 1, name, rest, path, entry =>
    if name = [.anyDepth] then do
      let isDirectory ← reader.isDirectory path
      match rest.dropWhile (· = [.anyDepth]) with
      | [] => if isDirectory then pure (path :: (← below reader directoriesOnly fuel [name] path)) else pure []
      | next :: others => do
        let here ← if GlobPart.accepts next entry.toList then below reader directoriesOnly fuel others path else pure []
        let deeper ← if isDirectory then below reader directoriesOnly fuel (name :: next :: others) path else pure []
        pure (here ++ deeper)
    else if GlobPart.accepts name entry.toList then below reader directoriesOnly fuel rest path
    else pure []

end

/-- The paths that a pattern stands for. -/
def paths (reader : FileReader m) (glob : Glob) : m (Except SearchError (List String)) :=
  (below reader glob.directoriesOnly (2 * (glob.names.length + deepest)) glob.names (if glob.isAbsolute then "/" else ".")).run

/-- The paths that one input stands for: what its pattern finds, which has to be something, or the input itself. -/
def input (reader : FileReader m) (text : String) : m (Except SearchError (List String)) :=
  if Glob.isMeant text then
    match Glob.parse? text with
    | .error e => pure (.error (.pattern e))
    | .ok glob => do
      match ← paths reader glob with
      | .error e => pure (.error e)
      | .ok [] => pure (.error (.noMatch text))
      | .ok found => pure (.ok found)
  else pure (.ok [text])

/-- The paths that inputs stand for, one input after the other. The first one that stands for none is the error. -/
def inputs (reader : FileReader m) : List String → m (Except SearchError (List String))
  | [] => pure (.ok [])
  | text :: texts => do
    match ← input reader text with
    | .error e => pure (.error e)
    | .ok found => pure ((← inputs reader texts).map (found ++ ·))

end Search

end Conform
