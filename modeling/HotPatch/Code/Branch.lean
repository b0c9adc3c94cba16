import HotPatch.Memory.Basic
import HotPatch.Number.LittleEndian

/-!
# Branches

The few pieces of machine code that the engine writes by itself: an absolute jump through an address
that follows it, near calls and jumps with a displacement of 32 bits, and filling.
-/

namespace HotPatch.Code

def nop : UInt8 := 0x90

/-- The bytes of an absolute jump: six of code, then the address. -/
def jumpAbsoluteLength : Nat := 14

def nearLength : Nat := 5

def jumpAbsolute (target : Address) : List UInt8 :=
  [0xFF, 0x25, 0, 0, 0, 0] ++ littleEndian 8 target

def Reaches (d : Int) : Prop := -0x80000000 ≤ d ∧ d < 0x80000000

instance (d : Int) : Decidable (Reaches d) := inferInstanceAs (Decidable (_ ∧ _))

/-- The displacement that takes an instruction of `len` bytes at `source` to `destination`. -/
def displacement? (source : Address) (len : Nat) (destination : Address) : Option Int :=
  let d : Int := destination - (source + len : Nat)
  if Reaches d then some d else none

def near? (opcode : UInt8) (source destination : Address) : Option (List UInt8) :=
  (displacement? source nearLength destination).map fun d ↦ opcode :: littleEndianInt 4 d

def callNear? (source destination : Address) : Option (List UInt8) := near? 0xE8 source destination

def jumpNear? (source destination : Address) : Option (List UInt8) := near? 0xE9 source destination

def nops (count : Nat) : List UInt8 := List.replicate count nop

@[simp] theorem length_jumpAbsolute (target : Address) :
    (jumpAbsolute target).length = jumpAbsoluteLength := by
  simp [jumpAbsolute, jumpAbsoluteLength]

@[simp] theorem length_nops (count : Nat) : (nops count).length = count := by simp [nops]

end HotPatch.Code
