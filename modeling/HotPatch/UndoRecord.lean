import HotPatch.Host

/-!
# Undo records

A captured write: the bytes that were at an address and the bytes that replace them. The bytes are
captured before anything is written, and each direction insists on finding what the other one left.
-/

namespace HotPatch

namespace UndoRecord

def capture (m : Memory) (a : Address) (after : List UInt8) : Except MemoryError UndoRecord :=
  match hread : m.readBytes a after.length with
  | .ok before => .ok ⟨a, before, after, Memory.length_of_readBytes hread⟩
  | .error e => .error e

/-- Writes the new bytes over those that were there. -/
def apply (r : UndoRecord) (h : Host) : Except MemoryError Unit × Host :=
  h.write r.address r.before r.after

def restore (r : UndoRecord) (h : Host) : Except MemoryError Unit × Host :=
  h.write r.address r.after r.before

def applyQuietly (r : UndoRecord) (h : Host) : Except MemoryError Unit × Host :=
  h.writeQuietly r.address r.before r.after

def restoreQuietly (r : UndoRecord) (h : Host) : Except MemoryError Unit × Host :=
  h.writeQuietly r.address r.after r.before

def make (a : Address) (after : List UInt8) (h : Host) : Except MemoryError UndoRecord × Host :=
  match capture h.memory a after with
  | .error e => (.error e, h)
  | .ok r =>
    match r.apply h with
    | (.ok (), h) => (.ok r, h)
    | (.error e, h) => (.error e, h)

/-- The record that puts back the same bytes over as many others. -/
def withAfter (r : UndoRecord) (after : List UInt8) (hlength : r.after.length = after.length) :
    UndoRecord :=
  ⟨r.address, r.before, after, r.length_eq.trans hlength⟩

/-- Replaces applied bytes by others; what is put back in the end stays. -/
def retarget (r : UndoRecord) (after : List UInt8) (h : Host) :
    Except MemoryError UndoRecord × Host :=
  match hwrite : h.write r.address r.after after with
  | (.ok (), h') => (.ok (r.withAfter after (Host.length_eq_of_write hwrite)), h')
  | (.error e, h') => (.error e, h')

variable {r : UndoRecord} {after : List UInt8} {h h' : Host}

theorem retarget_of_ok (hlength : r.after.length = after.length)
    (hwrite : h.write r.address r.after after = (.ok (), h')) :
    r.retarget after h = (.ok (r.withAfter after hlength), h') := by
  unfold retarget
  split
  · rename_i heq
    cases hwrite.symm.trans heq
    rfl
  · rename_i heq
    cases hwrite.symm.trans heq

theorem retarget_of_error {e : MemoryError}
    (hwrite : h.write r.address r.after after = (.error e, h')) :
    r.retarget after h = (.error e, h') := by
  unfold retarget
  split
  · rename_i heq
    cases hwrite.symm.trans heq
  · rename_i heq
    cases hwrite.symm.trans heq
    rfl

end UndoRecord

end HotPatch
