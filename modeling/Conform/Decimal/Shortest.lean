/-!
# The shortest decimal of a double

A finite double stands for every real number that rounds to it. `Decimal.shortest` gives the decimal with the fewest digits among
those numbers, and of several of that length the one nearest to the double, the larger one on a tie. All of it is exact
arithmetic on natural numbers: a double is a natural number times a power of two.
-/

namespace Conform

/-- The decimal `digits * 10 ^ exponent`. -/
structure Decimal where
  digits : Nat
  exponent : Int
  deriving DecidableEq, Repr

/-- What a double stands for. -/
inductive FloatClass where
  | nan
  | infinite (negative : Bool)
  | finite (negative : Bool) (significand : Nat) (exponent : Int)
  deriving DecidableEq, Repr

namespace Decimal

/-- Reads the sign, the significand and the power of two off the bits of a double. -/
def classify (x : Float) : FloatClass :=
  let bits := x.toBits.toNat
  let negative := bits / 0x8000000000000000 % 2 = 1
  let power := bits / 0x10000000000000 % 0x800
  let fraction := bits % 0x10000000000000
  if power = 0x7ff then (if fraction = 0 then .infinite negative else .nan)
  else if power = 0 then .finite negative fraction (-1074)
  else .finite negative (0x10000000000000 + fraction) (Int.ofNat power - 1075)

/-- The numerator of `2 ^ a / 10 ^ b`. -/
def scaleNum (a b : Int) : Nat := Nat.pow 2 a.toNat * Nat.pow 10 (-b).toNat

/-- The denominator of `2 ^ a / 10 ^ b`. -/
def scaleDen (a b : Int) : Nat := Nat.pow 2 (-a).toNat * Nat.pow 10 b.toNat

/-- The number of decimal digits of a number. -/
def digitCount (n : Nat) : Nat := (Nat.toDigits 10 n).length

/-- The least power of ten above `m * 2 ^ q`, by its exponent. -/
def magnitude (m : Nat) (q : Int) : Int :=
  Int.ofNat (digitCount (m * scaleNum q (-400) / scaleDen q (-400))) - 400

/-- The multiple of `10 ^ p` that is nearest to the double `m * 2 ^ q` among its two neighbours that round to it. -/
def onGrid? (m : Nat) (q : Int) (p : Int) : Option Nat :=
  let a := scaleNum (q - 2) p
  let b := scaleDen (q - 2) p
  let low := if m = 0x10000000000000 ∧ -1074 < q then 4 * m - 1 else 4 * m - 2
  let high := 4 * m + 2
  let inside (c : Nat) : Bool :=
    if m % 2 = 0 then low * a ≤ c * b && c * b ≤ high * a else low * a < c * b && c * b < high * a
  let c := 4 * m * a / b
  if inside c && inside (c + 1) then some (if (2 * c + 1) * b ≤ 2 * (4 * m * a) then c + 1 else c)
  else if inside c then some c
  else if inside (c + 1) then some (c + 1)
  else none

/-- The decimal without zeros at the end of its digits. -/
def trim : Nat → Decimal → Decimal
  | 0, d => d
  | fuel + 1, d => if d.digits % 10 = 0 then trim fuel ⟨d.digits / 10, d.exponent + 1⟩ else d

/-- The shortest decimal that rounds to the positive double `m * 2 ^ q`. -/
def shortest (m : Nat) (q : Int) : Decimal :=
  let e := magnitude m q
  let found := (List.range 17).findSome? fun n =>
    let p := e - Int.ofNat (n + 1)
    (onGrid? m q p).map fun c => (⟨c, p⟩ : Decimal)
  trim 18 (found.getD ⟨4 * m * scaleNum (q - 2) (e - 17) / scaleDen (q - 2) (e - 17), e - 17⟩)

end Decimal

end Conform
