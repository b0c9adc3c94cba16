import HotPatch.Memory.Basic
import HotPatch.Number.LittleEndian

/-!
# Instructions

The instructions that a function prologue is made of: where each one ends, whether it depends on
where it stands, and whether control goes past it. An instruction outside the table is not decoded.
-/

namespace HotPatch.Code

/-- No instruction has more bytes. -/
def maxLength : Nat := 15

inductive Role where
  | plain
  /-- Refers to memory by a displacement that stands at `place` and counts from the end. -/
  | relative (place : Nat) (displacement : Int)
  | call (displacement : Int)
  | jump (displacement : Int)
  /-- Jumps under one of sixteen conditions. -/
  | conditional (condition : Nat) (displacement : Int)
  /-- A loop or a test of the counter, which has no near form. -/
  | loop (opcode : UInt8) (displacement : Int)
  deriving DecidableEq, Repr

structure Instruction where
  code : List UInt8
  role : Role
  /-- Control never reaches the instruction that follows. -/
  leaves : Bool
  nonempty : code ≠ []
  length_le : code.length ≤ maxLength
  deriving DecidableEq, Repr

namespace Instruction

def length (i : Instruction) : Nat := i.code.length

theorem length_pos (i : Instruction) : 0 < i.length := List.length_pos_iff.2 i.nonempty

/-- The first `size` bytes of `bytes` as an instruction. -/
def ofFront? (bytes : List UInt8) (size : Nat) (role : Role) (leaves : Bool) : Option Instruction :=
  if h : 0 < size ∧ size ≤ maxLength ∧ size ≤ bytes.length then
    some {
      code := bytes.take size, role, leaves
      nonempty := by
        rw [← List.length_pos_iff, List.length_take]
        omega
      length_le := by
        rw [List.length_take]
        omega }
  else none

def displacementAt (bytes : List UInt8) (place size : Nat) : Int :=
  let n := ofLittleEndian ((bytes.drop place).take size)
  if size = 1 then (if n < 0x80 then n else n - 0x100) else signed32 n

/-- An instruction that ends with a displacement of `size` bytes at `place`. -/
def branch? (bytes : List UInt8) (place size : Nat) (role : Int → Role) (leaves : Bool) :
    Option Instruction :=
  ofFront? bytes (place + size) (role (displacementAt bytes place size)) leaves

structure Operands where
  mode : Nat
  register : Nat
  base : Nat
  deriving DecidableEq, Repr

def Operands.ofByte (b : UInt8) : Operands := ⟨b.toNat / 64, b.toNat / 8 % 8, b.toNat % 8⟩

namespace Operands

def isRegister (o : Operands) : Bool := o.mode == 3

/-- Whether the operand lies at a displacement from the end of the instruction. -/
def isRelative (o : Operands) : Bool := o.mode == 0 && o.base == 5

/-- The bytes from the operand byte to the end of the displacement, given the byte that follows. -/
def size (o : Operands) (next : UInt8) : Nat :=
  let scaled := !o.isRegister && o.base == 4
  let displacement :=
    match o.mode with
    | 0 => if o.base == 5 || (scaled && next.toNat % 8 == 5) then 4 else 0
    | 1 => 1
    | 2 => 4
    | _ => 0
  1 + (if scaled then 1 else 0) + displacement

end Operands

/-- An instruction whose operand byte stands at `place`, followed by a constant of `constant`
bytes. -/
def withOperands? (bytes : List UInt8) (place constant : Nat) (leaves : Operands → Bool)
    (allowed : Operands → Bool) : Option Instruction :=
  match bytes.drop place with
  | [] => none
  | b :: rest =>
    let o := Operands.ofByte b
    if allowed o then
      let size := place + o.size (rest.headD 0) + constant
      if o.isRelative then
        ofFront? bytes size (.relative (place + 1) (displacementAt bytes (place + 1) 4)) (leaves o)
      else ofFront? bytes size .plain (leaves o)
    else none

/-- Decodes an instruction whose opcode starts at `place`, after the operand-size prefix if `narrow`
and the prefix for 64-bit operands if `wide`. -/
def decodeAt? (bytes : List UInt8) (place : Nat) (narrow wide : Bool) : Option Instruction :=
  let prefixed := place != 0
  let constant := if narrow then 2 else 4
  let operands (size : Nat) := withOperands? bytes (place + 1) size (fun _ ↦ false) fun _ ↦ true
  match (bytes.drop place).map UInt8.toNat with
  | [] => none
  | 0x0F :: c :: _ =>
    if c = 0x05 ∨ c = 0x0B then ofFront? bytes (place + 2) .plain false
    else if c = 0x1E ∨ c = 0x1F then
      withOperands? bytes (place + 2) 0 (fun _ ↦ false) fun _ ↦ true
    else if 0x80 ≤ c ∧ c ≤ 0x8F ∧ !prefixed then
      branch? bytes (place + 2) 4 (.conditional (c - 0x80)) false
    else none
  | b :: _ =>
    if 0x50 ≤ b ∧ b ≤ 0x5F ∨ b = 0x90 ∨ b = 0xC9 ∨ b = 0xCC ∨ b = 0xF4 then
      ofFront? bytes (place + 1) .plain false
    else if b < 0x40 ∧ b % 8 < 4 ∨ 0x84 ≤ b ∧ b ≤ 0x8B then operands 0
    else if b = 0x8D then withOperands? bytes (place + 1) 0 (fun _ ↦ false) fun o ↦ !o.isRegister
    else if b = 0x80 ∨ b = 0x83 then operands 1
    else if b = 0x81 then operands constant
    else if b = 0xC6 ∨ b = 0xC7 then
      withOperands? bytes (place + 1) (if b = 0xC6 then 1 else constant) (fun _ ↦ false)
        fun o ↦ o.register == 0
    else if 0xB8 ≤ b ∧ b ≤ 0xBF then
      ofFront? bytes (place + 1 + (if wide then 8 else constant)) .plain false
    else if b = 0xFF then
      withOperands? bytes (place + 1) 0 (fun o ↦ o.register == 4) fun o ↦
        o.register != 3 && o.register != 5 && o.register != 7
    else if b = 0xC3 then ofFront? bytes (place + 1) .plain true
    else if b = 0xC2 then ofFront? bytes (place + 3) .plain true
    else if prefixed then none
    else if b = 0xE8 then branch? bytes 1 4 .call false
    else if b = 0xE9 then branch? bytes 1 4 .jump true
    else if b = 0xEB then branch? bytes 1 1 .jump true
    else if 0x70 ≤ b ∧ b ≤ 0x7F then branch? bytes 1 1 (.conditional (b - 0x70)) false
    else if 0xE0 ≤ b ∧ b ≤ 0xE3 then branch? bytes 1 1 (.loop (UInt8.ofNat b)) false
    else none

/-- Decodes the instruction at the front of `bytes`: at most one prefix for size or repetition, at
most one for wide registers, then the opcode. -/
def decode? (bytes : List UInt8) : Option Instruction :=
  let wideAt (place : Nat) : Option UInt8 :=
    (bytes[place]?).filter fun b ↦ b.toNat / 16 == 4
  let first := bytes.head?.filter fun b ↦ b == 0x66 || b == 0xF2 || b == 0xF3
  let place := if first.isSome then 1 else 0
  match wideAt place with
  | some b =>
    decodeAt? bytes (place + 1) (first == some 0x66 && b.toNat % 16 < 8) (8 ≤ b.toNat % 16)
  | none => decodeAt? bytes place (first == some 0x66) false

end Instruction

end HotPatch.Code
