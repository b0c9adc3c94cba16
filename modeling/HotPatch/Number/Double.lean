import HotPatch.Number.BinaryFormat

/-!
# Double-precision numbers

A number is its code of 64 bits. Comparison goes by an integer key, so that both zeros are equal and
what is no number compares with nothing; conversions are exact where they can be and round to
nearest otherwise.
-/

namespace HotPatch

structure Double where
  bits : UInt64
  deriving DecidableEq, Repr

namespace Double

def magnitude (x : Double) : Nat := x.bits.toNat % BinaryFormat.double.signWeight

def negative (x : Double) : Bool := BinaryFormat.double.signWeight ≤ x.bits.toNat

/-- The number with the given sign and the code `c` of its absolute value. -/
def ofMagnitude (negative : Bool) (c : Nat) : Double :=
  ⟨UInt64.ofNat (if negative then c + BinaryFormat.double.signWeight else c)⟩

def isNaN (x : Double) : Bool := BinaryFormat.double.infinity < x.magnitude

def isInfinite (x : Double) : Bool := x.magnitude == BinaryFormat.double.infinity

def nan : Double := ofMagnitude false BinaryFormat.double.quiet

/-- The place of a number in the order; both zeros have the same. -/
def key (x : Double) : Int := if x.negative then -(x.magnitude : Int) else x.magnitude

def less (x y : Double) : Bool := !x.isNaN && !y.isNaN && x.key < y.key

/-- Equality of numbers: what is no number differs from itself, both zeros are equal. -/
def same (x y : Double) : Bool := !x.isNaN && !y.isNaN && x.key == y.key

/-- The larger of two numbers, the second one when they are equal; a number wins against none. -/
def max (x y : Double) : Double :=
  if y.isNaN || y.less x then x else y

/-- The smaller of two numbers, the second one when they are equal; a number wins against none. -/
def min (x y : Double) : Double :=
  if y.isNaN || x.less y then x else y

def ofRatio (negative : Bool) (num den : Nat) : Double :=
  if num = 0 then ofMagnitude negative 0
  else ofMagnitude negative (BinaryFormat.double.round num den)

def ofInt (i : Int) : Double := ofRatio (i < 0) i.natAbs 1

/-- The number nearest to `± digits · 10 ^ exponent`. Exponents far beyond the format's range are
answered without forming the power. -/
def ofDecimal (negative : Bool) (digits : Nat) (exponent : Int) : Double :=
  let size : Int := (Nat.toDigits 10 digits).length
  if digits = 0 ∨ exponent + size < -400 then ofMagnitude negative 0
  else if 400 < exponent + size then ofMagnitude negative BinaryFormat.double.infinity
  else if 0 ≤ exponent then ofRatio negative (digits * Nat.pow 10 exponent.toNat) 1
  else ofRatio negative digits (Nat.pow 10 (-exponent).toNat)

/-- The absolute value without its fraction, for a finite number. -/
def truncated (x : Double) : Nat :=
  let (m, e) := BinaryFormat.double.decode x.magnitude
  if 0 ≤ e then m <<< e.toNat else m >>> (-e).toNat

/-- The integer toward zero, held within 64 bits; zero for what is no number. -/
def toInt (x : Double) : Int :=
  if x.isNaN then 0
  else
    let size := if x.isInfinite then 0x8000000000000000 else x.truncated
    if x.negative then -(Nat.min size 0x8000000000000000 : Int)
    else (Nat.min size 0x7FFFFFFFFFFFFFFF : Int)

/-- The code of the nearest single-precision number. What is no number keeps its sign and the upper
part of its code, and is made quiet. -/
def toSingle (x : Double) : Nat :=
  let f := BinaryFormat.single
  let low :=
    if x.isNaN then
      f.quiet ||| (x.magnitude >>> 29) % f.leading
    else if x.isInfinite then f.infinity
    else
      let (m, e) := BinaryFormat.double.decode x.magnitude
      if m = 0 then 0
      else if 0 ≤ e then f.round (m <<< e.toNat) 1 else f.round m (1 <<< (-e).toNat)
  if x.negative then low + f.signWeight else low

end Double

end HotPatch
