/-!
# Little-endian numbers

Numbers as bytes, the lowest first, and the two's complement of 32 bits.
-/

namespace HotPatch

def littleEndian : Nat → Nat → List UInt8
  | 0, _ => []
  | count + 1, value => UInt8.ofNat value :: littleEndian count (value / 256)

def ofLittleEndian : List UInt8 → Nat
  | [] => 0
  | b :: rest => b.toNat + 256 * ofLittleEndian rest

/-- The `count` lowest bytes of an integer in two's complement. -/
def littleEndianInt (count : Nat) (i : Int) : List UInt8 :=
  littleEndian count (i % (Nat.pow 256 count : Nat)).toNat

/-- The integer that a number below `2 ^ 32` stands for in two's complement. -/
def signed32 (n : Nat) : Int := if n < 0x80000000 then n else n - 0x100000000

@[simp] theorem length_littleEndian (count value : Nat) :
    (littleEndian count value).length = count := by
  induction count generalizing value with
  | zero => rfl
  | succ count ih => simp [littleEndian, ih]

/-- Reading back gives the number without what did not fit. -/
theorem ofLittleEndian_littleEndian (count value : Nat) :
    ofLittleEndian (littleEndian count value) = value % Nat.pow 256 count := by
  induction count generalizing value with
  | zero => simp [littleEndian, ofLittleEndian, Nat.mod_one]
  | succ count ih =>
    have hb : (UInt8.ofNat value).toNat = value % 256 := by simp
    have hpow : Nat.pow 256 (count + 1) = 256 * Nat.pow 256 count := Nat.pow_succ'
    rw [littleEndian, ofLittleEndian, ih, hb, hpow, Nat.mod_mul]

end HotPatch
