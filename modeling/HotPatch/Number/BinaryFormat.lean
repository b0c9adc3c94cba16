/-!
# Binary floating-point formats

A format is a significand width and an exponent width. `round` takes a positive ratio to the code of
the nearest number of the format, a tie to the even significand; codes of positive numbers are
ordered as their values, so a carry out of the significand needs no special treatment.
-/

namespace HotPatch

structure BinaryFormat where
  /-- Bits of the significand, the leading one included. -/
  precision : Nat
  exponentBits : Nat
  deriving DecidableEq, Repr

namespace BinaryFormat

def double : BinaryFormat := ⟨53, 11⟩

def single : BinaryFormat := ⟨24, 8⟩

variable (f : BinaryFormat)

/-- The code of one in the lowest place of the exponent. -/
def leading : Nat := 1 <<< (f.precision - 1)

/-- The code of infinity; larger codes are no numbers. -/
def infinity : Nat := (1 <<< f.exponentBits - 1) * f.leading

def signWeight : Nat := f.leading <<< f.exponentBits

/-- The exponent of the last significand bit of the smallest numbers. -/
def minExponent : Int := 3 - (1 <<< (f.exponentBits - 1) : Nat) - f.precision

/-- The code of the quiet number that is none. -/
def quiet : Nat := f.infinity + f.leading / 2

/-- Whether `num / den < 2 ^ k`. -/
def belowPower (num den : Nat) (k : Int) : Bool :=
  if 0 ≤ k then num < den <<< k.toNat else num <<< (-k).toNat < den

/-- The exponent of the leading bit of `num / den`. -/
def leadingExponent (num den : Nat) : Int :=
  let k : Int := (Nat.log2 num : Int) - Nat.log2 den
  if belowPower num den k then k - 1 else k

/-- The quotient, to the nearest natural number; a tie goes to the even one. -/
def nearest (num den : Nat) : Nat :=
  let q := num / den
  let r := num % den
  if 2 * r < den then q else if den < 2 * r then q + 1 else q + q % 2

/-- The code of the number nearest to `num / den`, for a positive ratio. -/
def round (num den : Nat) : Nat :=
  let e := max (leadingExponent num den - (f.precision - 1)) f.minExponent
  let m := if 0 ≤ e then nearest num (den <<< e.toNat) else nearest (num <<< (-e).toNat) den
  min f.infinity ((e - f.minExponent).toNat * f.leading + m)

/-- The significand and exponent of the number with code `c` below infinity. -/
def decode (c : Nat) : Nat × Int :=
  let place := c / f.leading
  let low := c % f.leading
  if place = 0 then (low, f.minExponent) else (low + f.leading, f.minExponent + (place - 1 : Nat))

end BinaryFormat

end HotPatch
