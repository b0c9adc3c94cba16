import HotPatch.Hook.Inline
import HotPatch.Hook.Scripted
import HotPatch.Hook.Slot

/-!
# Hooks

A hook redirects calls from a target to an interceptor. It is prepared before anything is written,
then attached and detached at will.
-/

namespace HotPatch

inductive Hook where
  | slot (k : SlotHook)
  | inline (k : InlineHook)
  | scripted (k : ScriptedHook)

inductive HookPlan where
  | slot (name : String) (pointer detour : Address) (passage : Nat)
  | inline (name : String) (target detour : Address) (passage : Nat)
  | scripted (k : ScriptedHook)

namespace Hook

def ofPlan (p : HookPlan) (h : Host) : Hook × Host :=
  match p with
  | .slot name pointer detour passage => (.slot ⟨name, pointer, detour, passage, .fresh⟩, h)
  | .inline name target detour passage =>
    match InlineHook.create name target detour passage h with
    | (k, h) => (.inline k, h)
  | .scripted k => (.scripted k, h)

def ofPlans : List HookPlan → Host → List Hook × Host
  | [], h => ([], h)
  | p :: rest, h =>
    match ofPlan p h with
    | (k, h) =>
      match ofPlans rest h with
      | (ks, h) => (k :: ks, h)

def name : Hook → String
  | .slot k => k.name
  | .inline k => k.name
  | .scripted k => k.name

def isAttached : Hook → Bool
  | .slot k => k.stage.isActive
  | .inline k => k.stage.isActive
  | .scripted k => k.attached

def call (c : HookCall) (k : Hook) (h : Host) : Except HookError Unit × Hook × Host :=
  match k with
  | .slot k =>
    match (match c with
      | .prepare => k.prepare h
      | .attach => k.attach h
      | .detach => k.detach h) with
    | (r, k, h) => (r, .slot k, h)
  | .inline k =>
    match (match c with
      | .prepare => k.prepare h
      | .attach => k.attach h
      | .detach => k.detach h) with
    | (r, k, h) => (r, .inline k, h)
  | .scripted k =>
    match k.call c h with
    | (r, k, h) => (r, .scripted k, h)

def prepare (k : Hook) (h : Host) : Except HookError Unit × Hook × Host := k.call .prepare h

def attach (k : Hook) (h : Host) : Except HookError Unit × Hook × Host := k.call .attach h

def detach (k : Hook) (h : Host) : Except HookError Unit × Hook × Host := k.call .detach h

/-- Detaches a hook that is given up while in place. -/
def detachLast (k : Hook) (h : Host) : Hook × Host :=
  if k.isAttached then
    match k.detach h with
    | (.ok (), k, h) => (k, h)
    | (.error e, k, h) =>
      (k, h.note .error ("Failed to detach hook `" ++ k.name ++ "` on drop: " ++ e.message))
  else (k, h)

/-- The end of a hook: it is detached, and the memory of a trampoline that nobody knows of is given
back. A scripted hook is left as it is. -/
def release (k : Hook) (h : Host) : Host :=
  match k with
  | .slot _ => (k.detachLast h).2
  | .inline _ =>
    match k.detachLast h with
    | (.inline k, h) => k.discard h
    | (_, h) => h
  | .scripted _ => h

def releaseAll : List Hook → Host → Host
  | [], h => h
  | k :: rest, h => releaseAll rest (k.release h)

end Hook

end HotPatch
