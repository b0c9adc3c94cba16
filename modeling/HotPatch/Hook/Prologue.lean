import HotPatch.Code.Relocation
import HotPatch.Hook.Stage

/-!
# Function prologues

The whole instructions at the front of a function that have to give way to a redirect.
-/

namespace HotPatch.Prologue

open HotPatch.Code

/-- The bytes read at a target: enough for a redirect whose last byte starts the longest
instruction. -/
def lookahead : Nat := jumpAbsoluteLength + maxLength - 1

/-- Takes instructions off `bytes`, of which `taken` bytes of `target` were taken before, until the
redirect fits. Control must not leave the function before that. -/
def stealFrom (c : InstructionSet) (target : Address) (taken : Nat) (bytes : List UInt8) :
    Except HookError (List Instruction) :=
  if jumpAbsoluteLength ≤ taken then .ok []
  else
    match c.decode? bytes with
    | none => .error (.invalidInstruction (target + taken))
    | some i =>
      if i.leaves ∧ taken + i.length < jumpAbsoluteLength then
        .error (.tooShort target (taken + i.length))
      else
        match stealFrom c target (taken + i.length) (bytes.drop i.length) with
        | .ok rest => .ok (i :: rest)
        | .error e => .error e
termination_by jumpAbsoluteLength - taken
decreasing_by
  have := i.length_pos
  omega

def steal (c : InstructionSet) (target : Address) (bytes : List UInt8) :
    Except HookError (List Instruction) :=
  stealFrom c target 0 bytes

def size (block : List Instruction) : Nat := block.foldr (fun i n ↦ i.length + n) 0

/-- The bytes that go over the stolen ones: an absolute jump and filling. -/
def redirect (detour : Address) (stolen : Nat) : List UInt8 :=
  jumpAbsolute detour ++ nops (stolen - jumpAbsoluteLength)

/-- What a trampoline at `place` holds: the stolen instructions, moved, and a jump to what follows
them. -/
def trampoline? (c : InstructionSet) (target place : Address) (block : List Instruction) :
    Option (List UInt8) :=
  (c.relocate? target place block).map (· ++ jumpAbsolute (target + size block))

/-- The room asked for a trampoline: twice the longest instruction for each one, and the jump. -/
def room (block : List Instruction) : Nat := block.length * (2 * maxLength) + jumpAbsoluteLength

end HotPatch.Prologue
