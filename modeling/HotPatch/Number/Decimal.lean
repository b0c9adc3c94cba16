import HotPatch.Number.Double

/-!
# Decimal text of numbers

The fewest decimal digits that read back as the same number, the nearest such decimal first, and the
two ways in which they are laid out.
-/

namespace HotPatch

namespace Double

/-- The point of the grid `10 ^ k` next to `mid / den` that lies between `lo / den` and `hi / den`,
the ends counted when `closed`. The nearer of two wins, the upper one of two equally near. -/
def gridPoint? (lo mid hi den : Nat) (closed : Bool) (k : Int) : Option Nat :=
  let up := if 0 ≤ k then 1 else Nat.pow 10 (-k).toNat
  let step := if 0 ≤ k then den * Nat.pow 10 k.toNat else den
  let q := mid * up / step
  let inside (d : Nat) : Bool :=
    let x := d * step
    if closed then lo * up ≤ x && x ≤ hi * up else lo * up < x && x < hi * up
  match inside q, inside (q + 1) with
  | true, true => some (if (mid * up - q * step) * 2 < step then q else q + 1)
  | true, false => some q
  | false, true => some (q + 1)
  | false, false => none

/-- Searches grids of falling exponent for a point of the interval. -/
def searchGrids (lo mid hi den : Nat) (closed : Bool) : Nat → Int → Nat × Int
  | 0, k => (mid / den, k)
  | fuel + 1, k =>
    match gridPoint? lo mid hi den closed k with
    | some d => (d, k)
    | none => searchGrids lo mid hi den closed fuel (k - 1)

/-- Digits and exponent of the shortest decimal that reads back as the absolute value of a finite
number other than zero. The decimals that do lie between the midpoints to both neighbours, and the
midpoints count when the significand is even. -/
def shortest (x : Double) : Nat × Int :=
  let f := BinaryFormat.double
  let (m, e) := f.decode x.magnitude
  let below := if m = f.leading ∧ f.minExponent < e then 1 else 2
  let unit := e - 2
  let scale := if 0 ≤ unit then 1 <<< unit.toNat else 1
  let den := if 0 ≤ unit then 1 else 1 <<< (-unit).toNat
  let start := (e + Nat.log2 m + 1) * 30103 / 100000 + 1
  searchGrids ((4 * m - below) * scale) (4 * m * scale) ((4 * m + 2) * scale) den (m % 2 == 0) 40
    start

structure Style where
  positional : Nat → Bool
  /-- The text of what is no number, whatever its sign. -/
  nan : String

/-- Printed values: positional from a ten-thousandth up to but not including ten to the
sixteenth. -/
def printed : Style where
  positional c := c == 0 || (BinaryFormat.double.round 1 10000 ≤ c &&
    c < BinaryFormat.double.round 10000000000000000 1)
  nan := "NaN"

def inDocument : Style where
  positional _ := true
  nan := "nan"

/-- Positional layout of `digits · 10 ^ exponent`; an integral value gets one zero after the
point. -/
def positionalText (digits : List Char) (exponent : Int) : List Char :=
  if 0 ≤ exponent then digits ++ List.replicate exponent.toNat '0' ++ ['.', '0']
  else
    let places := (-exponent).toNat
    let padded := List.replicate (places + 1 - digits.length) '0' ++ digits
    padded.take (padded.length - places) ++ ['.'] ++ padded.drop (padded.length - places)

/-- Layout with one digit before the point and the exponent after an `e`. -/
def scientificText (digits : List Char) (exponent : Int) : List Char :=
  let shifted := exponent + (digits.length - 1 : Nat)
  digits.take 1 ++ (if digits.length ≤ 1 then [] else '.' :: digits.drop 1) ++
    ['e'] ++ (toString shifted).toList

/-- The text of a number in the given style. -/
def text (style : Style) (x : Double) : String :=
  let sign := if x.negative then "-" else ""
  if x.isNaN then style.nan
  else if x.isInfinite then sign ++ "inf"
  else if x.magnitude = 0 then sign ++ "0.0"
  else
    let (d, k) := x.shortest
    let digits := Nat.toDigits 10 d
    sign ++ String.ofList
      (if style.positional x.magnitude then positionalText digits k else scientificText digits k)

end Double

end HotPatch
