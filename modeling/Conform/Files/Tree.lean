import Conform.Files.System

/-!
# Trees of files

A file system kept as a value: what stands at each place, a place being the row of names that leads to it from the root, and the
place where its reader stands. It refuses what a real file system refuses, by the same rules about names and slashes.
-/

namespace Conform

/-- What stands at a place of a file tree. -/
inductive FileEntry where
  | file (content : ByteArray)
  | directory

/-- A tree of files. The root is a directory even where nothing is said about it. -/
structure FileTree where
  entries : List (List String × FileEntry)
  home : List String

namespace FileTree

/-- The longest name of a file, in bytes. -/
def nameMax : Nat := 255

/-- The longest path, in bytes. -/
def pathMax : Nat := 4095

/-- The tree without files, whose reader stands in a directory. -/
def ofHome (home : List String) : FileTree :=
  ⟨(List.range home.length).map fun n => (home.take (n + 1), .directory), home⟩

/-- What stands at a place. -/
def entry? (tree : FileTree) (place : List String) : Option FileEntry :=
  if place = [] then some .directory else (tree.entries.find? fun e => e.1 == place).map Prod.snd

/-- The tree with an entry at a place. -/
def set (tree : FileTree) (place : List String) (entry : FileEntry) : FileTree :=
  { tree with entries := (place, entry) :: tree.entries.filter fun e => e.1 != place }

/-! ### Following paths -/

/-- Checks that a directory stands at a place. -/
def enter (tree : FileTree) (place : List String) : Except FileError Unit :=
  match tree.entry? place with
  | none => .error .notFound
  | some (.file _) => .error .notDirectory
  | some .directory => .ok ()

/-- The place that a name leads to from a directory. Nothing need stand there. -/
def step (tree : FileTree) (place : List String) (name : String) : Except FileError (List String) :=
  match tree.enter place with
  | .error e => .error e
  | .ok _ =>
    if name = "." then .ok place
    else if name = ".." then .ok place.dropLast
    else if nameMax < name.utf8ByteSize then .error .nameTooLong
    else .ok (place ++ [name])

/-- The place that a row of names leads to. -/
def follow (tree : FileTree) (place : List String) : List String → Except FileError (List String)
  | [] => .ok place
  | name :: rest =>
    match tree.step place name with
    | .error e => .error e
    | .ok next => tree.follow next rest

/-- Checks that a text may be a path at all. -/
def checkPath (path : String) : Except FileError Unit :=
  if path.toList.contains '\x00' then .error .nulByte
  else if path.isEmpty then .error .notFound
  else if pathMax < path.utf8ByteSize then .error .nameTooLong
  else .ok ()

/-- The place where a path starts. -/
def start (tree : FileTree) (path : String) : List String := if Path.isAbsolute path then [] else tree.home

/-- What stands where a path leads to. A path that ends in a slash leads to directories only. -/
def locate (tree : FileTree) (path : String) : Except FileError FileEntry :=
  match checkPath path with
  | .error e => .error e
  | .ok _ =>
    match tree.follow (tree.start path) (Path.names path) with
    | .error e => .error e
    | .ok place =>
      match tree.entry? place, Path.endsInSlash path with
      | none, _ => .error .notFound
      | some (.file _), true => .error .notDirectory
      | some entry, _ => .ok entry

/-- The directory that a path to something new leads to, and its last name. None for the name where the path ends in a dot or
has no name. -/
def locateParent (tree : FileTree) (path : String) : Except FileError (List String × Option String) :=
  match checkPath path with
  | .error e => .error e
  | .ok _ =>
    match tree.follow (tree.start path) (Path.names path).dropLast with
    | .error e => .error e
    | .ok place =>
      match tree.enter place with
      | .error e => .error e
      | .ok _ => .ok (place, (Path.names path).getLast?.filter fun name => name != "." && name != "..")

/-! ### Reading -/

/-- The text of a file. -/
def text (tree : FileTree) (path : String) : Except FileError String :=
  match tree.locate path with
  | .error e => .error e
  | .ok .directory => .error .isDirectory
  | .ok (.file content) =>
    match String.fromUTF8? content with
    | none => .error .notText
    | some s => .ok s

/-- Whether a path leads to a directory. -/
def isDirectory (tree : FileTree) (path : String) : Bool :=
  match tree.locate path with
  | .ok .directory => true
  | _ => false

/-- The names in the directory that a path leads to. -/
def names (tree : FileTree) (path : String) : Except FileError (List String) :=
  match tree.locate path with
  | .error e => .error e
  | .ok (.file _) => .error .notDirectory
  | .ok .directory =>
    (tree.follow (tree.start path) (Path.names path)).map fun place =>
      tree.entries.filterMap fun e => if e.1.dropLast = place then e.1.getLast? else none

/-! ### Writing -/

/-- The tree in which a file holds some bytes, a new one or one that was there. -/
def put (tree : FileTree) (path : String) (content : ByteArray) : Except FileError FileTree :=
  match tree.locateParent path with
  | .error e => .error e
  | .ok (_, none) => .error .isDirectory
  | .ok (place, some name) =>
    if Path.endsInSlash path then .error .isDirectory
    else if nameMax < name.utf8ByteSize then .error .nameTooLong
    else match tree.entry? (place ++ [name]) with
      | some .directory => .error .isDirectory
      | _ => .ok (tree.set (place ++ [name]) (.file content))

/-- The tree with a new directory. -/
def createDirectory (tree : FileTree) (path : String) : Except FileError FileTree :=
  match tree.locateParent path with
  | .error e => .error e
  | .ok (_, none) => .error .alreadyExists
  | .ok (place, some name) =>
    if nameMax < name.utf8ByteSize then .error .nameTooLong
    else match tree.entry? (place ++ [name]) with
      | some _ => .error .alreadyExists
      | none => .ok (tree.set (place ++ [name]) .directory)

/-! ### As a file system -/

/-- Reading from a tree. -/
def reader : FileReader (ReaderM FileTree) where
  text path := fun tree => tree.text path
  names path := fun tree => tree.names path
  isDirectory path := fun tree => tree.isDirectory path
  isPresent path := fun tree => (tree.locate path).isOk

/-- Puts a changed tree in the place of the old one, which stays where the change was refused. -/
def change (result : FileTree → Except FileError FileTree) : StateM FileTree (Except FileError Unit) := fun tree =>
  match result tree with
  | .error e => (.error e, tree)
  | .ok changed => (.ok (), changed)

/-- Writing into a tree. -/
def writer : FileWriter (StateM FileTree) where
  write path text := change fun tree => tree.put path text.toUTF8
  createDirectory path := change fun tree => tree.createDirectory path
  isDirectory path := fun tree => (tree.isDirectory path, tree)

end FileTree

end Conform
