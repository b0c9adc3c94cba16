import HotPatch.Memory.Region
import HotPatch.Text.Hex

/-!
# Checked reading

A range may be read when the regions that it meets leave no gap in it and may all be read; otherwise
the first gap or region that stands in the way decides the error.
-/

namespace HotPatch

/-- The ways in which a checked read or write is refused. -/
inductive MemoryError where
  /-- No page at `address`, the first of `length` addresses that were still to be checked. -/
  | uncommitted (address : Address) (length : Nat)
  /-- The run of pages that starts at `address` may not be read. -/
  | protection (address : Address) (protection : Protection)
  /-- The range holds other bytes than a write expected. -/
  | unexpectedBytes (address : Address) (expected found : List UInt8)
  | mismatch (address : Address) (length : Nat)
  /-- A write failed half-way and could not be undone. -/
  | torn (address : Address)
  /-- What was written did not read back. -/
  | verification (address : Address)
  | outOfRange (source destination : Address)
  | permissionDenied
  deriving DecidableEq, Repr

namespace MemoryError

def message : MemoryError → String
  | .uncommitted a n => "memory at " ++ Text.address a ++ s!" (+{n}) is not committed"
  | .protection a p =>
    "memory at " ++ Text.address a ++ " has protection " ++ p.print ++
      " which does not permit access"
  | .unexpectedBytes a expected found =>
    "unexpected bytes at " ++ Text.address a ++ ": expected " ++ Text.byteList expected ++
      ", found " ++ Text.byteList found
  | .mismatch a n => "memory at " ++ Text.address a ++ s!" (+{n}) does not hold the expected bytes"
  | .torn a => "write at " ++ Text.address a ++ " failed part-way and could not be undone"
  | .verification a => "write verification failed at " ++ Text.address a
  | .outOfRange source destination =>
    "rel32 from " ++ Text.address source ++ " cannot reach " ++ Text.address destination
  | .permissionDenied =>
    "error setting memory protections: System call failed: Permission denied (os error 13)"

end MemoryError

namespace Memory

/-- Whether the regions go on from `cursor` to `stop` without a gap and may all be read. A gap is
reported where it starts, with the length that is left, and a region that may not be read by its
start and its protection. -/
def accessRegions (stop cursor : Address) : List Region → Except MemoryError Unit
  | [] => .error (.uncommitted cursor (stop - cursor))
  | r :: rs =>
    if cursor < r.start then .error (.uncommitted cursor (stop - cursor))
    else if !r.page.protection.read then .error (.protection r.start r.page.protection)
    else
      let cursor := max cursor r.stop
      if stop ≤ cursor then .ok () else accessRegions stop cursor rs

/-- Whether all of `[a, a + len)` is mapped and may be read. A range that runs over the end of the
address space counts as not mapped. -/
def checkAccess (m : Memory) (a : Address) (len : Nat) : Except MemoryError Unit :=
  if len = 0 then .ok ()
  else if addressLimit ≤ a + len then .error (.uncommitted a len)
  else accessRegions (a + len) a (m.regions ⟨a, a + len⟩)

/-- The bytes of a range that may be read. -/
def readBytes (m : Memory) (a : Address) (len : Nat) : Except MemoryError (List UInt8) :=
  match m.checkAccess a len with
  | .ok () => .ok (m.bytes a len)
  | .error e => .error e

theorem length_of_readBytes {m : Memory} {a : Address} {len : Nat} {bs : List UInt8}
    (h : m.readBytes a len = .ok bs) : bs.length = len := by
  unfold readBytes at h
  split at h
  · cases h
    exact length_bytes ..
  · cases h

end Memory

end HotPatch
