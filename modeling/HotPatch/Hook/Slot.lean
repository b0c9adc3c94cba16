import HotPatch.Hook.Stage
import HotPatch.UndoRecord

/-!
# Slot hooks

A function pointer in memory is swapped for the interceptor; only calls that go through that slot
are affected.
-/

namespace HotPatch

structure SlotHook where
  name : String
  slot : Address
  detour : Address
  /-- The slot of the host that is told what the pointer was. -/
  passage : Nat
  stage : Stage UndoRecord
  deriving DecidableEq, Repr

namespace SlotHook

def prepare (k : SlotHook) (h : Host) : Except HookError Unit × SlotHook × Host :=
  match k.stage with
  | .fresh =>
    match UndoRecord.capture h.memory k.slot (littleEndian 8 k.detour) with
    | .ok r => (.ok (), { k with stage := .ready r }, h)
    | .error e => (.error (.memory e), k, h)
  | .ready _ | .active _ => (.ok (), k, h)

/-- Publishes the captured pointer, then swaps it. The publication stays when the swap fails. -/
def attach (k : SlotHook) (h : Host) : Except HookError Unit × SlotHook × Host :=
  match k.stage with
  | .active _ => (.ok (), k, h)
  | .fresh => (.error .notPrepared, k, h)
  | .ready r =>
    match r.applyQuietly (h.setPassage k.passage (ofLittleEndian r.before)) with
    | (.ok (), h) => (.ok (), { k with stage := .active r }, h)
    | (.error e, h) => (.error (.memory e), k, h)

def detach (k : SlotHook) (h : Host) : Except HookError Unit × SlotHook × Host :=
  match k.stage with
  | .fresh | .ready _ => (.ok (), k, h)
  | .active r =>
    match r.restoreQuietly h with
    | (.ok (), h) => (.ok (), { k with stage := .ready r }, h)
    | (.error e, h) => (.error (.memory e), k, h)

def read (m : Memory) (slot : Address) : Except HookError Address :=
  match m.readBytes slot 8 with
  | .ok bytes => .ok (ofLittleEndian bytes)
  | .error e => .error (.memory e)

end SlotHook

end HotPatch
