import HotPatch.Code.Branch
import HotPatch.UndoRecord

/-!
# Transactions

An ordered group of writes that is committed or rolled back as a unit. Writes are undone in reverse
order, so that overlapping ones unwind; an undoing that fails midway is itself undone.
-/

namespace HotPatch

/-- One write that a transaction can be asked for. -/
inductive Write where
  | bytes (a : Address) (new : List UInt8)
  /-- Written only if memory holds the expected bytes. -/
  | expecting (a : Address) (new expected : List UInt8)
  | number (size : Nat) (a : Address) (value : Nat)
  | nops (a : Address) (count : Nat)
  | call (a destination : Address)
  | jump (a destination : Address)
  deriving DecidableEq, Repr

inductive Phase where
  /-- Accepting writes; rolled back when given up. -/
  | active
  /-- The writes stay in place. -/
  | committed
  | rolledBack
  deriving DecidableEq, Repr

structure Transaction where
  records : List UndoRecord
  phase : Phase
  deriving DecidableEq, Repr

namespace Transaction

def empty : Transaction := ⟨[], .active⟩

def push (t : Transaction) (r : UndoRecord) (h : Host) :
    Except MemoryError Unit × Transaction × Host :=
  match r.apply h with
  | (.error e, h) => (.error e, t, h)
  | (.ok (), h) =>
    (.ok (), { t with records := t.records ++ [r] }, h.note .debug
      ("Patched " ++ Text.address r.address ++ ": " ++ Text.byteList r.before ++ " -> " ++
        Text.byteList r.after))

def write (t : Transaction) (a : Address) (new : List UInt8) (h : Host) :
    Except MemoryError Unit × Transaction × Host :=
  match UndoRecord.capture h.memory a new with
  | .error e => (.error e, t, h)
  | .ok r => t.push r h

def writeExpecting (t : Transaction) (a : Address) (new expected : List UInt8) (h : Host) :
    Except MemoryError Unit × Transaction × Host :=
  match UndoRecord.capture h.memory a new with
  | .error e => (.error e, t, h)
  | .ok r =>
    if r.before = expected then t.push r h
    else (.error (.unexpectedBytes a expected r.before), t, h)

def writeNear (t : Transaction) (code : Option (List UInt8)) (a destination : Address) (h : Host) :
    Except MemoryError Unit × Transaction × Host :=
  match code with
  | none => (.error (.outOfRange a destination), t, h)
  | some code => t.write a code h

def perform (t : Transaction) (w : Write) (h : Host) :
    Except MemoryError Unit × Transaction × Host :=
  match w with
  | .bytes a new => t.write a new h
  | .expecting a new expected => t.writeExpecting a new expected h
  | .number size a value => t.write a (littleEndian size value) h
  | .nops a count => t.write a (Code.nops count) h
  | .call a destination => t.writeNear (Code.callNear? a destination) a destination h
  | .jump a destination => t.writeNear (Code.jumpNear? a destination) a destination h

def commit (t : Transaction) : Transaction := { t with phase := .committed }

def isCommitted (t : Transaction) : Bool := t.phase == .committed

/-- Applies records again, in order; failures are only reported. -/
def redo : List UndoRecord → Host → Host
  | [], h => h
  | r :: rest, h =>
    match r.apply h with
    | (.ok (), h) => redo rest h
    | (.error e, h) =>
      redo rest (h.note .error ("Failed to re-apply " ++ Text.address r.address ++
        " after aborted rollback: " ++ e.message))

def undo : List UndoRecord → Host → Host
  | [], h => h
  | r :: rest, h =>
    match r.restore h with
    | (.ok (), h) => undo rest h
    | (.error e, h) =>
      undo rest (h.note .error ("Failed to restore " ++ Text.address r.address ++
        " after aborted re-apply: " ++ e.message))

/-- Restores records, the latest first. On failure those restored so far, which `done` lists in the
order in which they were made, are applied again. -/
def restoreEach : List UndoRecord → List UndoRecord → Host → Except MemoryError Unit × Host
  | [], _, h => (.ok (), h)
  | r :: rest, done, h =>
    match r.restore h with
    | (.ok (), h) => restoreEach rest (r :: done) h
    | (.error e, h) => (.error e, redo done h)

/-- Applies records in order. On failure those applied so far, which `done` lists the latest first,
are restored. -/
def applyEach : List UndoRecord → List UndoRecord → Host → Except MemoryError Unit × Host
  | [], _, h => (.ok (), h)
  | r :: rest, done, h =>
    match r.apply h with
    | (.ok (), h) => applyEach rest (r :: done) h
    | (.error e, h) => (.error e, undo done h)

def rollback (t : Transaction) (h : Host) : Except MemoryError Unit × Transaction × Host :=
  if t.phase = .rolledBack then (.ok (), t, h)
  else
    match restoreEach t.records.reverse [] h with
    | (.ok (), h) => (.ok (), { t with phase := .rolledBack }, h)
    | (.error e, h) => (.error e, t, h)

/-- Makes every write again after a rollback, or none. -/
def reapply (t : Transaction) (h : Host) : Except MemoryError Unit × Transaction × Host :=
  if t.phase ≠ .rolledBack then (.ok (), t, h)
  else
    match applyEach t.records [] h with
    | (.ok (), h) => (.ok (), { t with phase := .committed }, h)
    | (.error e, h) => (.error e, t, h)

/-- The end of a transaction: one that was never finished is rolled back. -/
def release (t : Transaction) (h : Host) : Host :=
  if t.phase = .active ∧ t.records ≠ [] then
    match t.rollback h with
    | (.ok (), _, h) => h
    | (.error e, _, h) =>
      h.note .error ("Failed to roll back abandoned transaction: " ++ e.message)
  else h

end Transaction

end HotPatch
