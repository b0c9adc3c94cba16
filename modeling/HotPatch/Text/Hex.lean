/-!
# Hexadecimal text

Addresses and bytes as they stand in messages, and the value of a hexadecimal digit.
-/

namespace HotPatch.Text

/-- The digit `d < 16`, with capital or small letters from ten on. -/
def hexDigit (capital : Bool) (d : Nat) : Char :=
  if d < 10 then Char.ofNat (48 + d) else Char.ofNat ((if capital then 55 else 87) + d)

/-- The value of a hexadecimal digit of either case. -/
def hexValue? (c : Char) : Option Nat :=
  let n := c.toNat
  if 48 ≤ n ∧ n ≤ 57 then some (n - 48)
  else if 65 ≤ n ∧ n ≤ 70 then some (n - 55)
  else if 97 ≤ n ∧ n ≤ 102 then some (n - 87)
  else none

/-- A byte is written with two digits, the high one first. -/
def hexByte (capital : Bool) (b : UInt8) : List Char :=
  [hexDigit capital (b.toNat / 16), hexDigit capital (b.toNat % 16)]

/-- An address is written with `0x` in front and without leading zeros. -/
def address (a : Nat) : String :=
  "0x" ++ String.ofList (Nat.toDigits 16 a)

/-- Bytes are listed in brackets, each with two capital digits. -/
def byteList (bytes : List UInt8) : String :=
  "[" ++ ", ".intercalate (bytes.map fun b ↦ String.ofList (hexByte true b)) ++ "]"

end HotPatch.Text
