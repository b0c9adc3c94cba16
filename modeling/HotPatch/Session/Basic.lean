import HotPatch.Manager.Saved
import HotPatch.Session.Files
import HotPatch.Session.Shelf
import HotPatch.Session.Watch

/-!
# Sessions

A host at work: a manager, and objects of every kind that somebody keeps under numbers. Putting an
object under a number that is taken ends the one that was there, after the new one is made; at the
end of the session everything that is left ends in a fixed order.
-/

namespace HotPatch

structure Session where
  host : Host
  watch : Watch
  registry : Registry
  version : Version
  image : Image
  manager : Manager
  records : Shelf UndoRecord
  transactions : Shelf Transaction
  batches : Shelf Batch
  hooks : Shelf Hook
  slots : Shelf Trampoline.Slot
  directory : Directory
  document : String

namespace Session

/-- A session with a fresh manager, watching `count` pages from `first` on. -/
def begin (host : Host) (first count : Nat) (registry : Registry) (version : Version)
    (image : Image) : Session where
  host := host
  watch := .begin first count host
  registry := registry
  version := version
  image := image
  manager := .new registry (.new version image)
  records := []
  transactions := []
  batches := []
  hooks := []
  slots := []
  directory := .missing
  document := ""

def look (s : Session) : Observation × Session :=
  match s.watch.look s.host with
  | (seen, watch, host) => (seen, { s with watch, host })

def onHost (s : Session) (f : Host → Host) : Session := { s with host := f s.host }

/-- The host changes what one of its pages permits. -/
def protect (s : Session) (page : Nat) (q : Protection) : Session :=
  s.onHost fun h ↦
    match h.memory.page page with
    | some p => { h with memory := h.memory.setPage page (some { p with protection := q }) }
    | none => h

/-! ## Undo records -/

def capture (s : Session) (n : Nat) (a : Address) (patched : List UInt8) :
    Except MemoryError UndoRecord × Session :=
  match UndoRecord.capture s.host.memory a patched with
  | .ok r => (.ok r, { s with records := s.records.put n r })
  | .error e => (.error e, s)

/-- Does something with a record, if there is one. -/
def withRecord (s : Session) (n : Nat)
    (f : UndoRecord → Host → Except MemoryError Unit × Host) :
    Option (Except MemoryError Unit) × Session :=
  match s.records.get? n with
  | none => (none, s)
  | some r =>
    match f r s.host with
    | (e, host) => (some e, { s with host })

/-! ## Transactions -/

/-- Puts a transaction under a number; the one that was there ends. -/
def putTransaction (s : Session) (n : Nat) (t : Transaction) : Session :=
  match s.transactions.get? n with
  | none => { s with transactions := s.transactions.put n t }
  | some old =>
    { s with transactions := s.transactions.put n t, host := old.release s.host }

/-- Does something with a transaction, if there is one. -/
def withTransaction (s : Session) (n : Nat)
    (f : Transaction → Host → Except MemoryError Unit × Transaction × Host) :
    Option (Except MemoryError Unit) × Session :=
  match s.transactions.get? n with
  | none => (none, s)
  | some t =>
    match f t s.host with
    | (e, t, host) => (some e, { s with transactions := s.transactions.put n t, host })

def dropTransaction (s : Session) (n : Nat) : Session :=
  match s.transactions.get? n with
  | none => s
  | some t => { s with transactions := s.transactions.remove n, host := t.release s.host }

/-! ## Hooks -/

/-- Makes a hook and puts it under a number; the one that was there ends. -/
def makeHook (s : Session) (n : Nat) (p : HookPlan) : Session :=
  match Hook.ofPlan p s.host with
  | (k, h) =>
    let host :=
      match s.hooks.get? n with
      | some old => old.release h
      | none => h
    { s with hooks := s.hooks.put n k, host }

def callHook (s : Session) (n : Nat) (c : HookCall) : Option (Except HookError Unit) × Session :=
  match s.hooks.get? n with
  | none => (none, s)
  | some k =>
    match k.call c s.host with
    | (r, k, host) => (some r, { s with hooks := s.hooks.put n k, host })

def dropHook (s : Session) (n : Nat) : Session :=
  match s.hooks.get? n with
  | none => s
  | some k => { s with hooks := s.hooks.remove n, host := k.release s.host }

/-- Makes a batch and puts it under a number; the one that was there ends. -/
def makeBatch (s : Session) (n : Nat) (ps : List HookPlan) : Session :=
  match Hook.ofPlans ps s.host with
  | (ks, h) =>
    let host :=
      match s.batches.get? n with
      | some old => old.release h
      | none => h
    { s with batches := s.batches.put n (.ofHooks ks), host }

/-- Does something with a batch, if there is one. -/
def withBatch (s : Session) (n : Nat)
    (f : Batch → Host → Except BatchError Unit × Batch × Host) :
    Option (Except BatchError Unit) × Session :=
  match s.batches.get? n with
  | none => (none, s)
  | some b =>
    match f b s.host with
    | (r, b, host) => (some r, { s with batches := s.batches.put n b, host })

def dropBatch (s : Session) (n : Nat) : Session :=
  match s.batches.get? n with
  | none => s
  | some b => { s with batches := s.batches.remove n, host := b.release s.host }

/-! ## Executable memory -/

/-- Memory that was handed out is filled with breakpoints. -/
def breakpoint : UInt8 := 0xCC

/-- Hands out executable memory and puts it under a number; what was there is taken back. -/
def allocate (s : Session) (n : Nat) (origin : Address) (size : Nat) :
    Option Trampoline.Slot × Session :=
  match s.host.allocate origin size with
  | (none, host) => (none, { s with host })
  | (some slot, h) =>
    let h := h.fill slot (List.replicate size breakpoint)
    let host :=
      match s.slots.get? n with
      | some old => h.free old
      | none => h
    (some slot, { s with slots := s.slots.put n slot, host })

def free (s : Session) (n : Nat) : Session :=
  match s.slots.get? n with
  | none => s
  | some slot => { s with slots := s.slots.remove n, host := s.host.free slot }

/-! ## The manager -/

def manage {α : Type} (s : Session) (f : Manager → Host → α × Manager × Host) : α × Session :=
  match f s.manager s.host with
  | (r, manager, host) => (r, { s with manager, host })

/-- Replaces the manager by a fresh one; the old one ends. -/
def renew (s : Session) : Session :=
  { s with
    manager := .new s.registry (.new s.version s.image)
    host := s.manager.release s.host }

def save (s : Session) : String × Session :=
  let text := s.manager.save
  (text, { s with document := text })

def load (s : Session) (text : String) : Option Nat × Session := s.manage fun m h ↦ m.load text h

/-- Saves to a file; nothing comes of it if the directory is missing. -/
def saveFile (s : Session) (name : String) : Option Session :=
  (s.directory.write name s.manager.save.toUTF8.toList).map fun directory ↦ { s with directory }

/-- Writes a file, into a directory that is created if need be. -/
def writeFile (s : Session) (name : String) (bytes : List UInt8) : Session :=
  let directory := s.directory.create
  { s with directory := (directory.write name bytes).getD directory }

/-- Loads from a file. A file that is missing leaves everything as it is and counts as empty. -/
def loadFile (s : Session) (name : String) : Option (Option Nat) × Session :=
  match s.directory.read name with
  | .missing =>
    (some (some 0), s.onHost fun h ↦ h.note .info ("No saved patch state at " ++ name))
  | .unreadable => (none, s)
  | .text t =>
    match s.load t with
    | (r, s) => (some r, s)

/-! ## The end -/

/-- The end of everything that is left: transactions, batches, hooks and executable memory, each by
ascending number, then the manager. -/
def close (s : Session) : Session :=
  let h := s.transactions.foldl (fun h e ↦ e.2.release h) s.host
  let h := s.batches.foldl (fun h e ↦ e.2.release h) h
  let h := s.hooks.foldl (fun h e ↦ e.2.release h) h
  let h := s.slots.foldl (fun h e ↦ h.free e.2) h
  { s with
    transactions := []
    batches := []
    hooks := []
    slots := []
    host := s.manager.release h }

end Session

end HotPatch
