import HotPatch.Hook.Stage
import HotPatch.Host

/-!
# Scripted hooks

Hooks of a user's own making: they keep track of being attached, may write to the host in passing,
and fail at the calls that a schedule names.
-/

namespace HotPatch

/-- What a scripted hook does at one kind of call. -/
structure Schedule where
  fails : Nat → Bool
  poke : Option (Address × List UInt8)
  calls : Nat

structure ScriptedHook where
  name : String
  error : HookError
  schedule : HookCall → Schedule
  attached : Bool

namespace ScriptedHook

def count (k : ScriptedHook) (c : HookCall) : ScriptedHook :=
  { k with schedule := fun d ↦
      if d = c then { k.schedule c with calls := (k.schedule c).calls + 1 } else k.schedule d }

/-- Receives a call: writes what the schedule says, then fails or succeeds and reports which. -/
def call (k : ScriptedHook) (c : HookCall) (h : Host) :
    Except HookError Unit × ScriptedHook × Host :=
  let s := k.schedule c
  let h :=
    match s.poke with
    | some (a, bs) => h.poke a bs
    | none => h
  let failed := s.fails s.calls
  let h := h.report (.hook k.name c failed)
  let k := k.count c
  if failed then (.error k.error, k, h)
  else
    match c with
    | .prepare => (.ok (), k, h)
    | .attach => (.ok (), { k with attached := true }, h)
    | .detach => (.ok (), { k with attached := false }, h)

end ScriptedHook

end HotPatch
