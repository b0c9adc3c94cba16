import HotPatch.Memory.Access
import HotPatch.Trampoline.Pool

/-!
# Stages and errors

How far a hook has come, and the ways in which it fails to be prepared, attached or detached. Only
what was prepared can be in place, so the stage carries what the preparation made.
-/

namespace HotPatch

inductive Stage (α : Type) where
  | fresh
  | ready (work : α)
  | active (work : α)
  deriving DecidableEq, Repr

namespace Stage

variable {α : Type}

def isActive : Stage α → Bool
  | .active _ => true
  | .fresh | .ready _ => false

def work? : Stage α → Option α
  | .fresh => none
  | .ready w | .active w => some w

end Stage

inductive HookError where
  | memory (e : MemoryError)
  | outOfMemory (origin : Address)
  /-- A moved operand is out of reach. -/
  | encoding
  | invalidInstruction (address : Address)
  /-- The function ends before the redirect fits. -/
  | tooShort (address : Address) (length : Nat)
  | trampolineOverflow (address : Address)
  | notPrepared
  deriving DecidableEq, Repr

namespace HookError

def message : HookError → String
  | .memory e => e.message
  | .outOfMemory origin => Trampoline.outOfMemoryMessage origin
  | .encoding =>
    "IP relative memory operand is too far away and isn't currently supported. Try to allocate " ++
      "memory close to the original instruction (+/-2GB)."
  | .invalidInstruction a => "invalid instruction at " ++ Text.address a
  | .tooShort a n => "function at " ++ Text.address a ++ s!" is too short to hook ({n} bytes)"
  | .trampolineOverflow a =>
    "relocated code for " ++ Text.address a ++ " does not fit its trampoline"
  | .notPrepared => "hook was not prepared"

end HookError

end HotPatch
