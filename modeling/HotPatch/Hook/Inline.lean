import HotPatch.Hook.Prologue
import HotPatch.UndoRecord

/-!
# Inline hooks

The first instructions of a function are moved to a trampoline and replaced by a jump to the
interceptor.
-/

namespace HotPatch

structure Redirect where
  trampoline : Trampoline.Slot
  record : UndoRecord
  /-- Whether the trampoline's address was ever given out. -/
  published : Bool
  deriving DecidableEq, Repr

structure InlineHook where
  name : String
  target : Address
  detour : Address
  /-- The slot of the host through which the interceptor reaches the function. -/
  passage : Nat
  stage : Stage Redirect
  deriving DecidableEq, Repr

namespace InlineHook

/-- A new hook; the interceptor reaches the function itself. -/
def create (name : String) (target detour : Address) (passage : Nat) (h : Host) :
    InlineHook × Host :=
  (⟨name, target, detour, passage, .fresh⟩, h.setPassage passage target)

/-- Fills a trampoline and captures the bytes that the redirect replaces. -/
def fill (k : InlineHook) (block : List Code.Instruction) (slot : Trampoline.Slot) (h : Host) :
    Except HookError Redirect × Host :=
  match Prologue.trampoline? h.instructions k.target slot.address block with
  | none => (.error .encoding, h)
  | some code =>
    if slot.length < code.length then (.error (.trampolineOverflow k.target), h)
    else
      let h := h.fill slot code
      match UndoRecord.capture h.memory k.target
          (Prologue.redirect k.detour (Prologue.size block)) with
      | .error e => (.error (.memory e), h)
      | .ok r => (.ok ⟨slot, r, false⟩, h)

/-- The stolen instructions of the function as it is now. -/
def steal (k : InlineHook) (h : Host) : Except HookError (List Code.Instruction) :=
  match h.memory.readBytes k.target Prologue.lookahead with
  | .error e => .error (.memory e)
  | .ok bytes => Prologue.steal h.instructions k.target bytes

/-- Builds the trampoline, once. On failure its memory is given back. -/
def prepare (k : InlineHook) (h : Host) : Except HookError Unit × InlineHook × Host :=
  match k.stage with
  | .ready _ | .active _ => (.ok (), k, h)
  | .fresh =>
    match k.steal h with
    | .error e => (.error e, k, h)
    | .ok block =>
      match h.allocate k.target (Prologue.room block) with
      | (none, h) => (.error (.outOfMemory k.target), k, h)
      | (some slot, h) =>
        match k.fill block slot h with
        | (.error e, h) => (.error e, k, h.free slot)
        | (.ok work, h) =>
          (.ok (), { k with stage := .ready work }, h.note .debug
            ("Prepared hook `" ++ k.name ++ s!"`: {Prologue.size block} bytes stolen from " ++
              Text.address k.target ++ ", trampoline at " ++ Text.address slot.address))

/-- Publishes the trampoline, then redirects the function. When the redirect fails, the interceptor
reaches the function itself again. -/
def attach (k : InlineHook) (h : Host) : Except HookError Unit × InlineHook × Host :=
  match k.stage with
  | .active _ => (.ok (), k, h)
  | .fresh => (.error .notPrepared, k, h)
  | .ready work =>
    let work := { work with published := true }
    match work.record.applyQuietly (h.publish k.passage work.trampoline) with
    | (.ok (), h) => (.ok (), { k with stage := .active work }, h)
    | (.error e, h) =>
      (.error (.memory e), { k with stage := .ready work }, h.setPassage k.passage k.target)

def detach (k : InlineHook) (h : Host) : Except HookError Unit × InlineHook × Host :=
  match k.stage with
  | .fresh | .ready _ => (.ok (), k, h)
  | .active work =>
    match work.record.restoreQuietly h with
    | (.ok (), h) =>
      (.ok (), { k with stage := .ready work }, h.setPassage k.passage k.target)
    | (.error e, h) => (.error (.memory e), k, h)

/-- Gives the trampoline back, unless its address was given out: a thread may still run in it. -/
def discard (k : InlineHook) (h : Host) : Host :=
  match k.stage.work? with
  | some work => if work.published then h else h.free work.trampoline
  | none => h

end InlineHook

end HotPatch
