import HotPatch.Hook.Basic
import HotPatch.Text.Quoted

/-!
# Hook batches

Hooks that are attached and detached as one. When one of them fails, those that went before it are
taken back in reverse order; a hook that cannot be taken back leaves the batch stuck half-way.
-/

namespace HotPatch

inductive BatchError where
  /-- The hook at `index` could not be attached, and none is. -/
  | attach (index : Nat) (name : String) (source : HookError)
  /-- The hook at `index` could not be detached, and all stay attached. -/
  | detach (index : Nat) (name : String) (source : HookError)
  /-- The hook at `index` could not be taken back after the hook named `cause` failed. -/
  | stuck (index : Nat) (name cause : String) (source : HookError)
  deriving DecidableEq, Repr

namespace BatchError

def message : BatchError → String
  | .attach index name source =>
    s!"failed to attach hook #{index} `" ++ name ++ "`: " ++ source.message
  | .detach index name source =>
    s!"failed to detach hook #{index} `" ++ name ++ "`: " ++ source.message
  | .stuck index name cause source =>
    s!"hook #{index} `" ++ name ++ "` could not be rolled back after `" ++ cause ++ "` failed: " ++
      source.message

end BatchError

/-- A hook that failed: its index in the batch, its name and the reason. -/
structure HookFailure where
  index : Nat
  name : String
  source : HookError
  deriving DecidableEq, Repr

abbrev Numbered := Nat × Hook

/-- What comes of calling the hooks of a batch one after the other. -/
structure Sweep where
  /-- The hooks, in the order in which they were called. -/
  hooks : List Numbered
  failure : Option HookFailure
  /-- The first call that could not be taken back. -/
  stuck : Option HookFailure

namespace Sweep

/-- Takes calls back, the latest first; each one is tried, and the first failure is kept. -/
def unwind (undo : HookCall) : List Numbered → Host → List Numbered × Option HookFailure × Host
  | [], h => ([], none, h)
  | (index, k) :: rest, h =>
    match k.call undo h with
    | (r, k, h) =>
      match unwind undo rest h with
      | (rest, later, h) =>
        match r with
        | .ok () => ((index, k) :: rest, later, h)
        | .error e => ((index, k) :: rest, some ⟨index, k.name, e⟩, h)

/-- Calls hooks in order until one fails; those called before, which `done` lists the latest first,
are then taken back. -/
def run (call undo : HookCall) : List Numbered → List Numbered → Host → Sweep × Host
  | done, [], h => (⟨done.reverse, none, none⟩, h)
  | done, (index, k) :: rest, h =>
    match k.call call h with
    | (.ok (), k, h) => run call undo ((index, k) :: done) rest h
    | (.error e, k, h) =>
      match unwind undo done h with
      | (done, stuck, h) =>
        (⟨done.reverse ++ (index, k) :: rest, some ⟨index, k.name, e⟩, stuck⟩, h)

end Sweep

structure Batch where
  hooks : List Hook
  attached : Bool

namespace Batch

def ofHooks (hooks : List Hook) : Batch := ⟨hooks, false⟩

def names (b : Batch) : List String := b.hooks.map Hook.name

def print (b : Batch) : String :=
  Text.record "HookBatch" [("hooks", Text.quotedList b.names), ("attached", toString b.attached)]

def number (index : Nat) : List Hook → List Numbered
  | [] => []
  | k :: rest => (index, k) :: number (index + 1) rest

/-- Reports the bytes behind a mismatch, which was found while nothing could be reported. -/
def reportMismatch (e : HookError) (h : Host) : Host :=
  match e with
  | .memory (.mismatch a n) =>
    match h.memory.readBytes a n with
    | .ok found =>
      h.note .warn ("Memory at " ++ Text.address a ++ " holds " ++ Text.byteList found)
    | .error e =>
      h.note .warn ("Memory at " ++ Text.address a ++ " is no longer readable: " ++ e.message)
  | _ => h

/-- The error when a hook could not be taken back after `cause`. -/
def reportStuck (stuck : HookFailure) (cause : String) (h : Host) : BatchError × Host :=
  (.stuck stuck.index stuck.name cause stuck.source,
    reportMismatch stuck.source (h.note .error ("Hook `" ++ stuck.name ++
      "` could not be rolled back after `" ++ cause ++ "` failed: " ++ stuck.source.message)))

def prepareFrom (index : Nat) : List Hook → Host → Option HookFailure × List Hook × Host
  | [], h => (none, [], h)
  | k :: rest, h =>
    match k.prepare h with
    | (.error e, k, h) => (some ⟨index, k.name, e⟩, k :: rest, h)
    | (.ok (), k, h) =>
      match prepareFrom (index + 1) rest h with
      | (failure, rest, h) => (failure, k :: rest, h)

/-- Attaches every hook or none. Nothing is written unless all could be prepared. -/
def attach (b : Batch) (h : Host) : Except BatchError Unit × Batch × Host :=
  if b.attached then (.ok (), b, h)
  else
    match prepareFrom 0 b.hooks h with
    | (some f, hooks, h) => (.error (.attach f.index f.name f.source), { b with hooks }, h)
    | (none, hooks, h) =>
      match Sweep.run .attach .detach [] (number 0 hooks) h with
      | (⟨swept, failure, stuck⟩, h) =>
        let b := { b with hooks := swept.map (·.2) }
        match failure with
        | none =>
          (.ok (), { b with attached := true }, h.note .debug s!"Attached {hooks.length} hook(s)")
        | some f =>
          let h := reportMismatch f.source h
          match stuck with
          | none => (.error (.attach f.index f.name f.source), b, h)
          | some s =>
            match reportStuck s f.name (h.note .error
                ("Hook `" ++ f.name ++ "` failed to attach: " ++ f.source.message)) with
            | (e, h) => (.error e, { b with attached := true }, h)

/-- Detaches every hook in reverse order, or none. On failure the batch counts as attached. -/
def detach (b : Batch) (h : Host) : Except BatchError Unit × Batch × Host :=
  if b.attached then
    match Sweep.run .detach .attach [] (number 0 b.hooks).reverse h with
    | (⟨swept, failure, stuck⟩, h) =>
      let b' := { b with hooks := swept.reverse.map (·.2) }
      match failure with
      | none =>
        (.ok (), { b' with attached := false }, h.note .debug s!"Detached {b.hooks.length} hook(s)")
      | some f =>
        let h := reportMismatch f.source h
        match stuck with
        | none => (.error (.detach f.index f.name f.source), b', h)
        | some s =>
          match reportStuck s f.name (h.note .error
              ("Hook `" ++ f.name ++ "` failed to detach: " ++ f.source.message)) with
          | (e, h) => (.error e, b', h)
  else (.ok (), b, h)

/-- The end of a batch: it is detached, then its hooks end in order. -/
def release (b : Batch) (h : Host) : Host :=
  match b.detach h with
  | (.ok (), b, h) => Hook.releaseAll b.hooks h
  | (.error e, b, h) =>
    Hook.releaseAll b.hooks
      (h.note .error ("Failed to detach hook batch on drop: " ++ e.message))

end Batch

end HotPatch
