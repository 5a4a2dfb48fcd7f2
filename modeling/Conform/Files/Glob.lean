import Conform.Text.Split

/-!
# Glob patterns

A pattern is a row of parts: `*` stands for any characters, `?` for one, brackets for one of a set or, behind an exclamation mark,
for one outside of it, and every other character for itself. A name is accepted when the parts spell all of it. A path pattern has
a pattern for each name between slashes; there `**` stands for any number of directories, and it has to be a whole name.
-/

namespace Conform

/-- A part of a pattern. A set is given by ranges of characters. -/
inductive GlobPart where
  | char (c : Char)
  | anyChar
  | anyRun
  | anyDepth
  | oneOf (ranges : List (Char × Char)) (negated : Bool)
  deriving DecidableEq, Repr

/-- Why a text is no pattern. -/
inductive GlobFault where
  | wildcards | recursion | range
  deriving DecidableEq, Repr

/-- Why a text is no pattern, and how many characters stand in front of the place where that shows. -/
structure GlobError where
  position : Nat
  fault : GlobFault
  deriving DecidableEq, Repr

/-- The text of a fault. -/
def GlobFault.message : GlobFault → String
  | .wildcards => "wildcards are either regular `*` or recursive `**`"
  | .recursion => "recursive wildcards must form a single path component"
  | .range => "invalid range pattern"

/-- The text of an error. -/
def GlobError.message (e : GlobError) : String := s!"Pattern syntax error near position {e.position}: {e.fault.message}"

namespace GlobPart

/-! ### Accepting names -/

/-- Whether a part that stands for one character accepts it. -/
def admits : GlobPart → Char → Bool
  | .char c, d => c == d
  | .anyChar, _ => true
  | .oneOf ranges negated, d => (ranges.any fun r => r.1 ≤ d && d ≤ r.2) != negated
  | .anyRun, _ => false
  | .anyDepth, _ => false

/-- A row of characters and what is left of it when more and more are taken off its front. -/
def suffixes : List Char → List (List Char)
  | [] => [[]]
  | c :: cs => (c :: cs) :: suffixes cs

/-- Whether parts spell the whole of a name. -/
def accepts : List GlobPart → List Char → Bool
  | [], cs => cs.isEmpty
  | .anyRun :: parts, cs => (suffixes cs).any (accepts parts)
  | .anyDepth :: parts, cs => (suffixes cs).any (accepts parts)
  | part :: parts, c :: cs => part.admits c && accepts parts cs
  | _, [] => false

/-- The character that a part stands for if it stands for itself. -/
def itself? : GlobPart → Option Char
  | .char c => some c
  | _ => none

/-- The name that parts spell if each stands for itself. -/
def literal? (parts : List GlobPart) : Option String := (parts.mapM itself?).map String.ofList

/-! ### Reading patterns -/

/-- The ranges of a set: two characters with a dash between them, or one by itself. -/
def ranges : List Char → List (Char × Char)
  | a :: '-' :: b :: cs => (a, b) :: ranges cs
  | a :: cs => (a, a) :: ranges cs
  | [] => []

/-- A set after its opening bracket, and how many characters it has up to its end. Its first character does not close it. -/
def set? (cs : List Char) : Option (GlobPart × Nat) :=
  let (negated, cs) := match cs with
    | '!' :: cs => (true, cs)
    | cs => (false, cs)
  match cs with
  | [] => none
  | first :: cs =>
    if cs.contains ']' then
      let inside := first :: cs.takeWhile (· ≠ ']')
      some (.oneOf (ranges inside) negated, inside.length + 1 + (if negated then 1 else 0))
    else none

/-- Reads a pattern of fewer characters than the given number, from a place on with what stands in front of it. -/
def readFrom : Nat → Nat → Option Char → List Char → Except GlobError (List GlobPart)
  | 0, _, _, _ => .ok []
  | _, _, _, [] => .ok []
  | fuel + 1, place, before, '*' :: cs =>
    match cs with
    | '*' :: '*' :: _ => .error ⟨place + 2, .wildcards⟩
    | '*' :: cs =>
      if before.all (· = '/') then
        match cs with
        | [] => .ok [.anyDepth]
        | '/' :: cs => (readFrom fuel (place + 3) (some '/') cs).map (.anyDepth :: ·)
        | _ => .error ⟨place + 2, .recursion⟩
      else .error ⟨place - 1, .recursion⟩
    | cs => (readFrom fuel (place + 1) (some '*') cs).map (.anyRun :: ·)
  | fuel + 1, place, _, '?' :: cs => (readFrom fuel (place + 1) (some '?') cs).map (.anyChar :: ·)
  | fuel + 1, place, _, '[' :: cs =>
    match set? cs with
    | none => .error ⟨place, .range⟩
    | some (part, size) => (readFrom fuel (place + 1 + size) (some ']') (cs.drop size)).map (part :: ·)
  | fuel + 1, place, _, c :: cs => (readFrom fuel (place + 1) (some c) cs).map (.char c :: ·)

/-- The parts of a pattern. -/
def read (cs : List Char) : Except GlobError (List GlobPart) := readFrom (cs.length + 1) 0 none cs

end GlobPart

/-- A pattern of paths: whether it leads from the root, a pattern for each name, and whether it asks for directories. -/
structure Glob where
  isAbsolute : Bool
  names : List (List GlobPart)
  directoriesOnly : Bool
  deriving DecidableEq, Repr

namespace Glob

/-- Whether a text is meant as a pattern. -/
def isMeant (text : String) : Bool := text.toList.any fun c => c == '*' || c == '?' || c == '[' || c == '{'

/-- The parts of a text between slashes, without an empty one at the end. -/
def pieces (cs : List Char) : List (List Char) :=
  let parts := Split.parts '/' cs
  if parts.getLast? = some [] then parts.dropLast else parts

/-- Reads a path pattern. The text has to be a pattern as a whole, and then each of its names has to be one. -/
def parse? (text : String) : Except GlobError Glob :=
  match GlobPart.read text.toList with
  | .error e => .error e
  | .ok _ =>
    let isAbsolute := text.toList.head? == some '/'
    match (pieces (if isAbsolute then text.toList.drop 1 else text.toList)).mapM GlobPart.read with
    | .error e => .error e
    | .ok names => .ok ⟨isAbsolute, names, text.toList.getLast? == some '/'⟩

end Glob

end Conform
