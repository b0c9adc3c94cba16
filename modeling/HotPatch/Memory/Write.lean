import HotPatch.Memory.Access

/-!
# Checked writing

New bytes go over expected ones, region by region, each being made writable only while it is copied
to. When a region cannot be made writable, what was copied before it is put back.
-/

namespace HotPatch.Memory

/-- Changes what the `count` pages from `n` on permit, all of them or none. -/
def protectPages (m : Memory) (q : Protection) (n : Nat) : Nat → Option Memory
  | 0 => some m
  | count + 1 => (m.protect n q).bind fun m ↦ m.protectPages q (n + 1) count

/-- Changes what the pages of `s` permit. -/
def protectSpan (m : Memory) (s : Span) (q : Protection) : Option Memory :=
  m.protectPages q (s.start / pageSize) ((s.stop - 1) / pageSize + 1 - s.start / pageSize)

/-- Copies to each region the part of `bs` that falls into it, `bs` starting at `a`. A part that may
not be written is made writable and protected again. On failure the answer is the number of bytes
copied, `copied` of them before these regions. -/
def writeRegions (a : Address) (bs : List UInt8) (copied : Nat) :
    List Region → Memory → Except Nat Unit × Memory
  | [], m => (.ok (), m)
  | r :: rs, m =>
    let s := r.clip ⟨a, a + bs.length⟩
    if s.stop ≤ s.start then writeRegions a bs copied rs m
    else
      let part := (bs.drop (s.start - a)).take (s.stop - s.start)
      let old := r.page.protection
      if old.write then writeRegions a bs (s.stop - a) rs (m.store s.start part)
      else
        match m.protectSpan s { old with write := true } with
        | none => (.error copied, m)
        | some m =>
          match (m.store s.start part).protectSpan s old with
          | none => (.error (s.stop - a), m.store s.start part)
          | some m => writeRegions a bs (s.stop - a) rs m

/-- Copies `bs` to `a`, lifting write protection where it stands in the way. -/
def writeProtected (m : Memory) (a : Address) (bs : List UInt8) : Except Nat Unit × Memory :=
  if bs.isEmpty then (.ok (), m)
  else writeRegions a bs 0 (m.regions ⟨a, a + bs.length⟩) m

/-- Writes `new` over `expected`. Nothing is written unless the whole range may be read and holds
the expected bytes; a failure after that puts back what was copied. -/
def writeExact (m : Memory) (a : Address) (expected new : List UInt8) :
    Except MemoryError Unit × Memory :=
  match m.checkAccess a new.length with
  | .error e => (.error e, m)
  | .ok () =>
    if m.bytes a new.length ≠ expected then (.error (.mismatch a new.length), m)
    else
      match m.writeProtected a new with
      | (.error copied, m) =>
        if copied = 0 then (.error .permissionDenied, m)
        else
          match m.writeProtected a (expected.take copied) with
          | (.error _, m) => (.error (.torn a), m)
          | (.ok (), m) => (.error .permissionDenied, m)
      | (.ok (), m) =>
        if m.bytes a new.length = new then (.ok (), m)
        else
          match m.writeProtected a expected with
          | (.error _, m) => (.error (.torn a), m)
          | (.ok (), m) => (.error (.verification a), m)

/-- As `writeExact`; a mismatch is reported with the bytes. -/
def writeChecked (m : Memory) (a : Address) (expected new : List UInt8) :
    Except MemoryError Unit × Memory :=
  match m.writeExact a expected new with
  | (.error (.mismatch a len), m) => (.error (.unexpectedBytes a expected (m.bytes a len)), m)
  | r => r

/-! ## What a write that succeeds tells -/

variable {m m' : Memory} {a : Address} {expected new : List UInt8}

/-- As many bytes were expected as were written, since all of them were compared. -/
theorem length_eq_of_writeExact (h : m.writeExact a expected new = (.ok (), m')) :
    expected.length = new.length := by
  unfold writeExact at h
  split at h
  · cases h
  · split at h
    · cases h
    · rename_i hbytes
      rw [← Decidable.not_not.mp hbytes, length_bytes]

theorem length_eq_of_writeChecked (h : m.writeChecked a expected new = (.ok (), m')) :
    expected.length = new.length := by
  unfold writeChecked at h
  split at h
  · cases h
  · exact length_eq_of_writeExact h

end HotPatch.Memory
