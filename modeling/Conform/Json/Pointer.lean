import Conform.Json
import Conform.Fields
import Conform.Text.Numeral
import Conform.Text.Split

/-!
# JSON pointers

A pointer is empty, for the whole document, or a row of tokens with a slash in front of each. In a token `~1` stands for a slash
and `~0` for a tilde. A token names a field of an object, or an element of a list by the canonical numeral of its position.
-/

namespace Conform.Pointer

/-- The text with every pair of the two characters replaced by one character, from left to right. -/
def replacePair (a b c : Char) : List Char → List Char
  | x :: y :: rest => if x = a ∧ y = b then c :: replacePair a b c rest else x :: replacePair a b c (y :: rest)
  | rest => rest

/-- The name that a token spells. -/
def decode (token : List Char) : List Char := replacePair '~' '0' '~' (replacePair '~' '1' '/' token)

/-- The token that spells a name. -/
def encode (name : List Char) : List Char :=
  name.flatMap fun c => if c = '~' then ['~', '0'] else if c = '/' then ['~', '1'] else [c]

/-- The pointer to a field of what a pointer points to. -/
def child (pointer : String) (name : String) : String := pointer ++ "/" ++ String.ofList (encode name.toList)

/-- The pointer to an element of what a pointer points to. -/
def element (pointer : String) (i : Nat) : String := pointer ++ "/" ++ toString i

/-- The names that a pointer spells. None when it is no pointer. -/
def names? (pointer : String) : Option (List String) :=
  match pointer.toList with
  | [] => some []
  | '/' :: cs => some ((Split.parts '/' cs).map fun token => String.ofList (decode token))
  | _ => none

/-- The part of a value that a name selects. -/
def step? (name : String) : Json → Option Json
  | .object fields => Fields.get? fields name
  | .array items => (Numeral.index? name).bind fun i => items[i]?
  | _ => none

/-- The part of a value that a row of names selects, one after the other. -/
def walk? : List String → Json → Option Json
  | [], j => some j
  | name :: rest, j => (step? name j).bind (walk? rest)

/-- The part of a document that a pointer selects. -/
def select? (pointer : String) (document : Json) : Option Json := (names? pointer).bind fun names => walk? names document

end Conform.Pointer
