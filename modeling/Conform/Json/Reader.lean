import Conform.Fields
import Conform.Json
import Conform.Json.Error
import Conform.Text.Numeral

/-!
# The JSON reader

Reads the value at the start of a text, at most 127 lists and objects deep. A key that is repeated in an object keeps its first
place and its last value. An integer that fits 64 bits is exact. Any other number is the double that its leading digits, as many
as fit a word, give when they are multiplied or divided by one power of ten, and not always the double nearest to the text.

`first?` reads a value and reports apart what follows it; `parse?` refuses a text in which anything but blanks follows.
-/

namespace Conform.Json

/-- A value read off the start of a text, with what is left of it. -/
abbrev Reading (α : Type) := Except Failure (α × List Char)

namespace Reading

/-- A failure after the whole of what has been consumed. -/
def fail {α : Type} (fault : Fault) (rest : List Char) : Reading α := .error ⟨fault, rest, 0, []⟩

/-- A failure at the next byte of the text. -/
def failNext {α : Type} (fault : Fault) (rest : List Char) : Reading α := .error ⟨fault, rest, 1, []⟩

/-- A reading of a part of the document. -/
def within {α : Type} (step : Step) (r : Reading α) : Reading α := r.mapError (Failure.within step)

end Reading

open Reading

/-- The text from the first character on that is no blank. -/
def skipBlank (cs : List Char) : List Char := cs.dropWhile fun c => c == ' ' || c == '\n' || c == '\t' || c == '\r'

/-! ### Literals -/

/-- Reads what is left of the name of a literal. -/
def readName (value : Json) : List Char → List Char → Reading Json
  | [], cs => .ok (value, cs)
  | _ :: _, [] => fail .eofValue []
  | n :: name, c :: cs => if n = c then readName value name cs else failNext .expectedIdent (c :: cs)

/-! ### Numbers -/

/-- Takes digits into a number as long as it fits a word. Gives the number, how many digits were taken, and the text left. -/
def takeDigits (n taken : Nat) : List Char → Nat × Nat × List Char
  | [] => (n, taken, [])
  | c :: cs =>
    if c.isDigit && 10 * n + Numeral.digitValue c ≤ Numeral.wordMax then
      takeDigits (10 * n + Numeral.digitValue c) (taken + 1) cs
    else (n, taken, c :: cs)

/-- A power of ten as a double. -/
def tenTo (n : Nat) : Float := Float.ofScientific 1 false n

/-- A word times a power of ten: one multiplication or division, or two divisions where the power itself is no double. -/
def scale (n : Nat) (exponent : Int) : Float :=
  let x := Float.ofNat n
  if n = 0 ∨ exponent < -616 then 0.0
  else if 0 ≤ exponent then (if exponent ≤ 308 then x * tenTo exponent.toNat else Float.ofBits 0x7ff0000000000000)
  else if -308 ≤ exponent then x / tenTo (-exponent).toNat
  else x / tenTo 308 / tenTo (-exponent - 308).toNat

/-- The double of a number in the text, which has to be finite. -/
def readFloat (negative : Bool) (n : Nat) (exponent : Int) (rest : List Char) : Reading JsonNumber :=
  let x := scale n exponent
  let x := if negative then -x else x
  if finite : x.isFinite = true then .ok (.float x finite, rest) else fail .numberOutOfRange rest

/-- The digits of an exponent. One that does not fit a signed half word makes zero, or a number out of range. -/
def readExponentDigits (negative : Bool) (n : Nat) (start : Int) (down : Bool) (e : Nat) : List Char → Reading JsonNumber
  | [] => readFloat negative n (if down then start - e else start + e) []
  | c :: cs =>
    if c.isDigit then
      if 10 * e + Numeral.digitValue c < 0x80000000 then
        readExponentDigits negative n start down (10 * e + Numeral.digitValue c) cs
      else if n ≠ 0 ∧ !down then fail .numberOutOfRange cs
      else readFloat negative 0 0 (cs.dropWhile Char.isDigit)
    else readFloat negative n (if down then start - e else start + e) (c :: cs)

/-- What follows the letter of an exponent. -/
def readExponent (negative : Bool) (n : Nat) (start : Int) (cs : List Char) : Reading JsonNumber :=
  let (down, cs) := match cs with
    | '+' :: cs => (false, cs)
    | '-' :: cs => (true, cs)
    | cs => (false, cs)
  match cs with
  | [] => fail .eofValue []
  | c :: _ => if c.isDigit then readExponentDigits negative n start down 0 cs else failNext .invalidNumber cs

/-- What follows the digits of a number that is no integer. -/
def readRest (negative : Bool) (n : Nat) (exponent : Int) : List Char → Reading JsonNumber
  | 'e' :: cs => readExponent negative n exponent cs
  | 'E' :: cs => readExponent negative n exponent cs
  | cs => readFloat negative n exponent cs

/-- What follows the point of a number. Digits that no longer fit a word count for nothing. -/
def readFraction (negative : Bool) (n : Nat) (exponent : Int) (cs : List Char) : Reading JsonNumber :=
  match cs with
  | [] => fail .eofValue []
  | c :: _ =>
    if c.isDigit then
      let (n, taken, rest) := takeDigits n 0 cs
      readRest negative n (exponent - taken) (rest.dropWhile Char.isDigit)
    else failNext .invalidNumber cs

/-- The exact number of a row of digits that fits a word; minus zero and negative numbers too far from zero are doubles. -/
def readInteger (negative : Bool) (n : Nat) (rest : List Char) : Reading JsonNumber :=
  if negative then
    if h : n ≠ 0 ∧ n ≤ 0x8000000000000000 then .ok (.integer (-Int.ofNat n) (by simp only [Int.ofNat_eq_natCast]; omega), rest)
    else readFloat true n 0 rest
  else if h : n < 0x10000000000000000 then .ok (.integer (Int.ofNat n) (by simp only [Int.ofNat_eq_natCast]; omega), rest)
  else readFloat false n 0 rest

/-- A number without its sign. -/
def readNumber (negative : Bool) (cs : List Char) : Reading JsonNumber :=
  match cs with
  | [] => fail .eofValue []
  | c :: cs' =>
    if c = '0' ∧ cs'.head?.any Char.isDigit then failNext .invalidNumber cs'
    else if c.isDigit then
      let (n, _, rest) := takeDigits 0 0 cs
      let dropped := rest.takeWhile Char.isDigit
      match rest.dropWhile Char.isDigit with
      | '.' :: after => readFraction negative n dropped.length after
      | 'e' :: after => readExponent negative n dropped.length after
      | 'E' :: after => readExponent negative n dropped.length after
      | after => if dropped.isEmpty then readInteger negative n after else readFloat negative n dropped.length after
    else failNext .invalidNumber cs

/-! ### Strings -/

/-- The value of a hexadecimal digit. -/
def hexDigit? (c : Char) : Option Nat :=
  if c.isDigit then some (c.toNat - '0'.toNat)
  else if 'a' ≤ c ∧ c ≤ 'f' then some (c.toNat - 'a'.toNat + 10)
  else if 'A' ≤ c ∧ c ≤ 'F' then some (c.toNat - 'A'.toNat + 10)
  else none

/-- Four hexadecimal digits. -/
def readHex (cs : List Char) : Reading Nat :=
  let bad : Reading Nat :=
    if (cs.map Char.utf8Size).foldl Nat.add 0 < 4 then fail .eofString [] else .error ⟨.invalidEscape, cs, 4, []⟩
  match cs with
  | a :: b :: c :: d :: rest =>
    match hexDigit? a, hexDigit? b, hexDigit? c, hexDigit? d with
    | some a, some b, some c, some d => .ok (((a * 16 + b) * 16 + c) * 16 + d, rest)
    | _, _, _, _ => bad
  | _ => bad

/-- The character of an escape by code, after its letter: one code, or two that are the halves of a surrogate pair. -/
def readCode (cs : List Char) : Reading Char :=
  match readHex cs with
  | .error e => .error e
  | .ok (high, rest) =>
    if 0xdc00 ≤ high ∧ high ≤ 0xdfff then fail .loneSurrogate rest
    else if 0xd800 ≤ high ∧ high ≤ 0xdbff then
      match rest with
      | [] => fail .eofString []
      | ['\\'] => fail .eofString []
      | '\\' :: 'u' :: after =>
        match readHex after with
        | .error e => .error e
        | .ok (low, rest) =>
          if 0xdc00 ≤ low ∧ low ≤ 0xdfff then .ok (Char.ofNat (0x10000 + (high - 0xd800) * 0x400 + (low - 0xdc00)), rest)
          else fail .loneSurrogate rest
      | '\\' :: after => failNext .endOfHexEscape after
      | rest => failNext .endOfHexEscape rest
    else .ok (Char.ofNat high, rest)

/-- The character of an escape, after its backslash. -/
def readEscape : List Char → Reading Char
  | [] => fail .eofString []
  | '"' :: cs => .ok ('"', cs)
  | '\\' :: cs => .ok ('\\', cs)
  | '/' :: cs => .ok ('/', cs)
  | 'b' :: cs => .ok ('\x08', cs)
  | 'f' :: cs => .ok ('\x0c', cs)
  | 'n' :: cs => .ok ('\n', cs)
  | 'r' :: cs => .ok ('\r', cs)
  | 't' :: cs => .ok ('\t', cs)
  | 'u' :: cs => readCode cs
  | cs => failNext .invalidEscape cs

/-- The rest of a string after its opening quote, given the characters read so far, last one first. There are at most as many
characters to read as `fuel`. -/
def readString : Nat → List Char → List Char → Reading String
  | 0, _, cs => fail .eofString cs
  | _, _, [] => fail .eofString []
  | fuel + 1, done, c :: cs =>
    if c = '"' then .ok (String.ofList done.reverse, cs)
    else if c = '\\' then
      match readEscape cs with
      | .error e => .error e
      | .ok (x, rest) => readString fuel (x :: done) rest
    else if c.toNat < 0x20 then failNext .controlCharacter (c :: cs)
    else readString fuel (c :: done) cs

/-! ### Lists and objects -/

/-- The elements of a list from one that starts at the text on, given how a value is read and what has been read. -/
def readItems (read : List Char → Reading Json) : Nat → List Json → List Char → Reading (List Json)
  | 0, _, cs => fail .eofList cs
  | fuel + 1, done, cs =>
    match (read cs).within (.index done.length) with
    | .error e => .error e
    | .ok (item, rest) =>
      match skipBlank rest with
      | [] => fail .eofList []
      | ']' :: rest => .ok ((item :: done).reverse, rest)
      | ',' :: rest =>
        match skipBlank rest with
        | [] => fail .eofValue []
        | ']' :: rest => failNext .trailingComma (']' :: rest)
        | cs => readItems read fuel (item :: done) cs
      | rest => failNext .expectedListEnd rest

/-- A list after its opening bracket. -/
def readList (read : List Char → Reading Json) (cs : List Char) : Reading Json :=
  match skipBlank cs with
  | [] => fail .eofList []
  | ']' :: rest => .ok (.array [], rest)
  | cs => (readItems read cs.length [] cs).map fun r => (.array r.1, r.2)

/-- The value of a field after its key. -/
def readMember (read : List Char → Reading Json) (key : String) (cs : List Char) : Reading Json :=
  match skipBlank cs with
  | [] => fail .eofObject []
  | ':' :: rest => (read rest).within (.key key)
  | rest => failNext .expectedColon rest

/-- A field: its key, whose quote starts the text, and its value. -/
def readField (read : List Char → Reading Json) (cs : List Char) : Reading (String × Json) :=
  match (readString cs.length [] (cs.drop 1)).within .unknown with
  | .error e => .error e
  | .ok (key, rest) => (readMember read key rest).map fun r => ((key, r.1), r.2)

/-- The fields of an object from one that starts at the text on, given how a value is read and what has been read. -/
def readFields (read : List Char → Reading Json) :
    Nat → List (String × Json) → List Char → Reading (List (String × Json))
  | 0, _, cs => fail .eofObject cs
  | fuel + 1, done, cs =>
    match readField read cs with
    | .error e => .error e
    | .ok ((key, item), rest) =>
      match skipBlank rest with
      | [] => (fail .eofObject []).within .unknown
      | '\x7d' :: rest => .ok (Fields.insert done key item, rest)
      | ',' :: rest =>
        match skipBlank rest with
        | [] => (fail .eofValue []).within .unknown
        | '\x7d' :: rest => (failNext .trailingComma ('\x7d' :: rest)).within .unknown
        | '"' :: rest => readFields read fuel (Fields.insert done key item) ('"' :: rest)
        | rest => (failNext .keyNotString rest).within .unknown
      | rest => (failNext .expectedObjectEnd rest).within .unknown

/-- An object after its opening brace. -/
def readObject (read : List Char → Reading Json) (cs : List Char) : Reading Json :=
  match skipBlank cs with
  | [] => (fail .eofObject []).within .unknown
  | '\x7d' :: rest => .ok (.object [], rest)
  | '"' :: rest => (readFields read (rest.length + 1) [] ('"' :: rest)).map fun r => (.object r.1, r.2)
  | rest => (failNext .keyNotString rest).within .unknown

/-! ### Values -/

/-- A value, given how the values inside it are read; without that it may hold none. -/
def readWith (nested : Option (List Char → Reading Json)) (cs : List Char) : Reading Json :=
  match skipBlank cs with
  | [] => fail .eofValue []
  | 'n' :: rest => readName .null "ull".toList rest
  | 't' :: rest => readName (.bool true) "rue".toList rest
  | 'f' :: rest => readName (.bool false) "alse".toList rest
  | '"' :: rest => (readString (rest.length + 1) [] rest).map fun r => (.string r.1, r.2)
  | '-' :: rest => (readNumber true rest).map fun r => (.number r.1, r.2)
  | '[' :: rest =>
    match nested with
    | none => failNext .recursionLimit ('[' :: rest)
    | some read => readList read rest
  | '\x7b' :: rest =>
    match nested with
    | none => failNext .recursionLimit ('\x7b' :: rest)
    | some read => readObject read rest
  | c :: rest =>
    if c.isDigit then (readNumber false (c :: rest)).map fun r => (.number r.1, r.2) else failNext .expectedValue (c :: rest)

/-- A value with at most so many lists and objects around any value in it. -/
def readValue : Nat → List Char → Reading Json
  | 0 => readWith none
  | levels + 1 => readWith (some (readValue levels))

/-- How deep lists and objects may nest. -/
def maxLevels : Nat := 127

/-- The value at the start of a text, and the error that what follows it is, if anything but blanks does. -/
def first? (text : String) : Except ReadError (Json × Option ReadError) :=
  let cs := text.toList
  match readValue maxLevels cs with
  | .error e => .error (e.error cs)
  | .ok (value, rest) =>
    match skipBlank rest with
    | [] => .ok (value, none)
    | rest => .ok (value, some (Failure.error cs ⟨.trailingCharacters, rest, 1, []⟩))

/-- The value of a text. -/
def parse? (text : String) : Except ReadError Json :=
  match first? text with
  | .error e => .error e
  | .ok (value, none) => .ok value
  | .ok (_, some e) => .error e

end Conform.Json
