/-!
# Blank text

The characters with the Unicode property White_Space, and texts that hold no others.
-/

namespace Conform.Blank

/-- The ranges of code points with the property White_Space. -/
def ranges : List (Nat × Nat) :=
  [(0x9, 0xd), (0x20, 0x20), (0x85, 0x85), (0xa0, 0xa0), (0x1680, 0x1680), (0x2000, 0x200a), (0x2028, 0x2029),
    (0x202f, 0x202f), (0x205f, 0x205f), (0x3000, 0x3000)]

/-- Whether a character is white space. -/
def isBlankChar (c : Char) : Bool := ranges.any (fun r => r.1 ≤ c.toNat && c.toNat ≤ r.2)

/-- Whether a text holds white space only. -/
def isBlank (text : List Char) : Bool := text.all isBlankChar

end Conform.Blank
